import Mathlib.Algebra.GroupWithZero.Nat
import RtThreadOta.Ymodem.FirstPacket
import RtThreadOta.Ymodem.Sender

/-!
# A sender and a receiver on one line

Each end is told what the other one has put on the line: in order, with whatever silences, and perhaps
not all of it. The sender never looks at a check sum and the receiver never at a sequence number, so that
neither knows by itself what the other has got. Together they do: what the receiver takes off the line can
only be the session of the sender's file, and the first `NAK` it ever sends comes behind the last packet
that it has stored.
-/

namespace RtThreadOta

open Interaction Nor Words

/-! ## One way to read a session -/

theorem Block.packet_length (b : Block) : b.packet.length = b.payload.length + 5 := by
  rw [Block.packet, List.length_cons, List.length_cons, List.length_cons, List.length_append]
  rfl

/-- A packet of 128 bytes begins with its code. -/
theorem Block.packet_soh {b : Block} (hb : b.payload.length = 128) :
    b.packet = rymCodeSoh :: b.packet.tail := by
  rw [Block.packet, if_pos hb]
  rfl

/-- A packet at the head of the line is the one that was put there. -/
theorem packet_prefix {b b' : Block} {rest tail : List UInt8} (hb : b.payload.length = 128)
    (hb' : b'.Sized) (h : b'.packet ++ rest <+: b.packet ++ tail) : b' = b ∧ rest <+: tail := by
  have hlen : b'.payload.length = 128 := by
    rcases hb' with hsoh | hstx
    · exact hsoh
    · -- the codes of the two sizes differ
      rw [Block.packet, Block.packet, if_pos hb, if_neg (by omega)] at h
      exact absurd (List.cons_prefix_cons.1 h).1 (by decide)
  obtain ⟨more, hmore⟩ := h
  rw [List.append_assoc] at hmore
  obtain ⟨hpacket, hrest⟩ := List.append_inj hmore (by rw [b.packet_length, b'.packet_length, hb, hlen])
  refine ⟨?_, more, hrest⟩
  rw [Block.packet, Block.packet] at hpacket
  obtain ⟨-, htail⟩ := List.cons.inj hpacket
  obtain ⟨hnumber, htail⟩ := List.cons.inj htail
  obtain ⟨-, htail⟩ := List.cons.inj htail
  obtain ⟨hpayload, -⟩ := List.append_inj htail (hlen.trans hb.symm)
  obtain ⟨number, payload⟩ := b
  obtain ⟨number', payload'⟩ := b'
  exact congrArg₂ Block.mk hnumber hpayload

/-- What begins with the code of a packet is no end of transmission. -/
theorem packet_not_eot {b : Block} {rest tail : List UInt8} :
    ¬ b.packet ++ rest <+: rymCodeEot :: tail := by
  intro h
  rw [Block.packet] at h
  have hcode := (List.cons_prefix_cons.1 h).1
  split at hcode
  · exact absurd hcode (by decide)
  · exact absurd hcode (by decide)

/-- What is put on the line arrives. -/
theorem reduceOption_map_some (bs : List UInt8) : (bs.map some).reduceOption = bs := by
  induction bs with
  | nil => rfl
  | cons b bs ih => exact congrArg (b :: ·) ih

/-- Whatever arrives of packets that were numbered is these packets, up to the end of transmission. -/
theorem Arrives.blocks_eq {fresh : Bool} {line rest : Line} {blocks bs : List Block}
    {tail : List UInt8} (h : Arrives fresh line bs rest)
    (hline : line.reduceOption <+: blocks.flatMap Block.packet ++ rymCodeEot :: tail)
    (hsized : ∀ b ∈ blocks, b.payload.length = 128)
    (hfirst : fresh = true → ∀ b ∈ blocks.head?, b.number ≠ 0) :
    bs = blocks ∧
      line.reduceOption = blocks.flatMap Block.packet ++ rymCodeEot :: rest.reduceOption := by
  induction h generalizing blocks with
  | eot rest =>
    cases blocks with
    | nil => exact ⟨rfl, rfl⟩
    | cons b blocks =>
      have hb := hsized b List.mem_cons_self
      rw [List.flatMap_cons, Block.packet, if_pos hb] at hline
      exact absurd (List.cons_prefix_cons.1 hline).1 (by decide)
  | @again code data line rest bs hdata _ _ =>
    rw [List.reduceOption_append, reduceOption_map_some] at hline
    cases blocks with
    | nil =>
      have hcode : code = rymCodeEot := (List.cons_prefix_cons.1 hline).1
      rcases hdata with ⟨rfl, -⟩ | ⟨rfl, -⟩
      · exact absurd hcode (by decide)
      · exact absurd hcode (by decide)
    | cons b blocks =>
      -- the number of the packet would be 0
      have htail := (List.cons_prefix_cons.1 hline).2
      exact absurd (List.cons_prefix_cons.1 htail).1.symm (hfirst rfl b rfl)
  | @block fresh b' line rest bs hsized' _ _ ih =>
    rw [List.reduceOption_append, reduceOption_map_some] at hline
    cases blocks with
    | nil => exact absurd hline packet_not_eot
    | cons b blocks =>
      rw [List.flatMap_cons, List.append_assoc] at hline
      obtain ⟨rfl, hrest⟩ := packet_prefix (hsized b List.mem_cons_self) hsized' hline
      obtain ⟨rfl, heq⟩ := ih hrest (fun b hb => hsized b (List.mem_cons_of_mem _ hb))
        (fun h => absurd h Bool.false_ne_true)
      refine ⟨rfl, ?_⟩
      rw [List.reduceOption_append, reduceOption_map_some, heq, List.flatMap_cons, List.append_assoc]

/-- The packet behind a silence, or behind codes that begin none, is the first one. -/
theorem noise_eq_nil {noise : Line} {bs rest : List UInt8}
    (hquiet : ∀ c ∈ noise, c ≠ some rymCodeSoh) (h : noise.reduceOption ++ bs <+: rymCodeSoh :: rest) :
    noise.reduceOption = [] := by
  cases hnoise : noise.reduceOption with
  | nil => rfl
  | cons b more =>
    have hmem : b ∈ noise.reduceOption := hnoise ▸ List.mem_cons_self
    rw [hnoise] at h
    rw [(List.cons_prefix_cons.1 h).1] at hmem
    exact absurd rfl (hquiet _ (List.reduceOption_mem_iff.1 hmem))

/-! ## The size of the file -/

/-- A number is its digits. -/
theorem decimalDigits_spec (fuel n : ℕ) (h : n < 10 ^ (fuel + 1)) :
    digitsValue 0 (decimalDigits (fuel + 1) n) = n ∧ decimalDigits (fuel + 1) n ≠ [] ∧
      ∀ b ∈ decimalDigits (fuel + 1) n, isDigit b = true := by
  have hdigit : ∀ d < 10, isDigit (UInt8.ofNat (48 + d)) = true ∧
      (UInt8.ofNat (48 + d)).toNat - 48 = d := by decide
  have hlast : ∀ (ds : List UInt8) (d : ℕ), d < 10 →
      digitsValue 0 (ds ++ [UInt8.ofNat (48 + d)]) = 10 * digitsValue 0 ds + d := by
    intro ds d hd
    rw [digitsValue, List.foldl_append, List.foldl_cons, List.foldl_nil, (hdigit d hd).2]
    rfl
  have hmod : n % 10 < 10 := Nat.mod_lt _ (Nat.succ_pos 9)
  induction fuel generalizing n with
  | zero =>
    have hlt : n < 10 := h
    have hself : n % 10 = n := Nat.mod_eq_of_lt hlt
    rw [decimalDigits, if_pos hlt, hself]
    refine ⟨(hlast [] n hlt).trans (Nat.zero_add n), List.cons_ne_nil _ _, fun b hb => ?_⟩
    rw [List.mem_singleton.1 hb]
    exact (hdigit n hlt).1
  | succ fuel ih =>
    rw [decimalDigits]
    split
    · rename_i hlt
      have hself : n % 10 = n := Nat.mod_eq_of_lt hlt
      rw [hself]
      refine ⟨(hlast [] n hlt).trans (Nat.zero_add n), List.cons_ne_nil _ _, fun b hb => ?_⟩
      rw [List.mem_singleton.1 hb]
      exact (hdigit n hlt).1
    · obtain ⟨hvalue, -, hdigits⟩ := ih (n / 10) (by rw [Nat.pow_succ] at h; omega)
        (Nat.mod_lt _ (Nat.succ_pos 9))
      refine ⟨?_, List.append_ne_nil_of_right_ne_nil _ (List.cons_ne_nil _ _), fun b hb => ?_⟩
      · rw [hlast _ _ hmod, hvalue]
        omega
      · rcases List.mem_append.1 hb with hb | hb
        · exact hdigits b hb
        · rw [List.mem_singleton.1 hb]
          exact (hdigit _ hmod).1

/-- The first packet announces the size of the file. -/
theorem fileSize_firstBlock {fpath : List UInt8} {size : ℕ} (hpath : ∀ b ∈ fpath, b ≠ 0)
    (hsize : size < 2147483648) : fileSize (firstBlock fpath size).payload = some size := by
  obtain ⟨hvalue, hne, hdigits⟩ := decimalDigits_spec 9 size (by omega)
  have htext : (firstBlock fpath size).payload = fpath ++ 0 :: (decimal size ++ 0 ::
      List.replicate (128 - (beginText fpath size).length) 0) := by
    rw [firstBlock]
    show beginText fpath size ++ _ = _
    rw [beginText, List.append_assoc, List.cons_append, List.append_assoc]
    rfl
  have hannounces : AnnouncesDecimal (firstBlock fpath size).payload size :=
    ⟨fpath, decimal size, 0, _, htext, hpath, hne, hdigits, by decide, hvalue.symm⟩
  have hends : NameAndNumberEnd (firstBlock fpath size).payload :=
    ⟨fpath, _, htext, hpath, [], [], decimal size, 0, _, rfl, (fun b hb => absurd hb List.not_mem_nil),
      Or.inl rfl, hdigits, by decide, fun _ hnil => absurd hnil hne⟩
  obtain ⟨n, hn⟩ := fileSize_isSome_iff.2 hends
  have hmin : max (-2147483648) (min 2147483647 (size : ℤ)) = size := by omega
  rw [hn, fileSize_eq hn, hannounces.announced, Option.getD_some, hmin, ofInt32_natCast (by omega)]

/-! ## What the receiver answers -/

variable {L : Layout} {env : Env} {s : Board} {part : FalPartition} {name : List UInt8} {ctx : RymCtx}

/-- Codes other than `NAK` are sent until the end of transmission. -/
def NoNak (ctx : RymCtx) : Prop := rymCodeNak ∉ ctx.sent

theorem NoNak.putchar {code : UInt8} (h : NoNak ctx) (hcode : code ≠ rymCodeNak) :
    NoNak (rymPutchar code ctx) := by
  intro hmem
  rcases List.mem_append.1 hmem with hmem | hmem
  · exact h hmem
  · exact hcode (List.mem_singleton.1 hmem).symm

theorem NoNak.readCode (h : NoNak ctx) : NoNak (rymReadCode ctx).2 := by
  unfold rymReadCode
  split
  · exact h
  · exact h
  · exact h

theorem yields_trivial {O H α : Type} {A : O → Type} (p : Prog A H α) :
    p.Yields (fun _ => True) fun _ => True := by
  induction p with
  | ret a => trivial
  | halt h => trivial
  | call o k ih => exact ih

theorem NoNak.onData (h : NoNak ctx) (bs : List UInt8) :
    (ymodemOnData ctx bs).Yields (fun _ => True) fun r => NoNak r.1 := by
  refine (yields_trivial _).bind fun ret _ => ?_
  split
  · exact h
  · exact h

theorem NoNak.transData (h : NoNak ctx) (sz : ℕ) :
    (rymTransData sz ctx).Yields (fun _ => True) fun r => NoNak r.1 := by
  have hread : NoNak (rymReadData (2 + sz + 2) ctx).2 := h
  rw [rymTransData]
  generalize rymReadData (2 + sz + 2) ctx = r at hread ⊢
  obtain ⟨i, ctx₁⟩ := r
  dsimp only at hread ⊢
  split_ifs
  · exact hread
  · exact hread
  · exact hread
  · exact hread
  · refine Prog.Yields.bind (NoNak.onData ?_ _) fun r hr => ?_
    · exact hread
    · exact hr

theorem NoNak.transLoop (h : NoNak ctx) (fuel : ℕ) :
    (rymTransLoop fuel ctx).Yields (fun _ => True) fun r => NoNak r.1 := by
  induction fuel generalizing ctx with
  | zero => trivial
  | succ fuel ih =>
    have hcode := h.readCode
    rw [rymTransLoop]
    generalize rymReadCode ctx = r at hcode ⊢
    obtain ⟨code, ctx₁⟩ := r
    dsimp only at hcode ⊢
    split
    · exact hcode
    split
    · exact hcode
    · refine (hcode.transData _).bind fun r hr => ?_
      obtain ⟨ctx₂, res⟩ := r
      cases res with
      | error err => exact hr
      | ok answer =>
        dsimp only at hr ⊢
        split_ifs
        · -- the cancels that end a session
          intro hmem
          rcases List.mem_append.1 hmem with hmem | hmem
          · exact hr hmem
          · exact absurd (List.eq_of_mem_replicate hmem) (by decide)
        · exact ih (hr.putchar (by decide))
        · exact ih hr

theorem NoNak.awaitPacket (h : NoNak ctx) (tmSec : ℕ) : NoNak (rymAwaitPacket tmSec ctx).1 := by
  induction tmSec generalizing ctx with
  | zero => exact h
  | succ tmSec ih =>
    have hasked : NoNak (rymPutchar rymCodeC ctx) := h.putchar (by decide)
    have hcode := hasked.readCode
    rw [rymAwaitPacket]
    generalize rymReadCode (rymPutchar rymCodeC ctx) = r at hcode ⊢
    obtain ⟨code, ctx₁⟩ := r
    dsimp only at hcode ⊢
    split_ifs
    · exact hcode
    · exact hcode
    · exact ih hcode

theorem NoNak.onBegin (h : NoNak ctx) (name : List UInt8) :
    (ymodemOnBegin L name ctx).Yields (fun _ => True) fun r => NoNak r.1 := by
  unfold ymodemOnBegin
  split
  · trivial
  · dsimp only
    split
    · exact h
    · split
      · exact h
      · exact (yields_trivial _).bind fun ret _ => h

theorem NoNak.handshake (h : NoNak ctx) (name : List UInt8) (tmSec : ℕ) :
    (rymDoHandshake L name tmSec ctx).Yields (fun _ => True) fun r => NoNak r.1 := by
  have hstage : NoNak { ctx with stage := .establishing } := h
  have hawait := hstage.awaitPacket tmSec
  rw [rymDoHandshake]
  generalize rymAwaitPacket tmSec { ctx with stage := .establishing } = w at hawait ⊢
  obtain ⟨ctx₁, _ | dataSz⟩ := w
  · exact hawait
  have hread : NoNak (rymReadData (dataSz - 1) ctx₁).2 := hawait
  dsimp only
  generalize rymReadData (dataSz - 1) ctx₁ = r at hread ⊢
  obtain ⟨i, ctx₂⟩ := r
  dsimp only at hread ⊢
  split_ifs
  · exact hread
  · exact hread
  · exact hread
  · exact (hread.onBegin name).bind fun r hr => hr

/-! ## The end of a session -/

theorem lastBlock_length : lastBlock.payload.length = 128 := by
  apply filled_length
  exact Nat.zero_le 128

/-- The packet without a name ends the session, or stops it. It begins no other file. -/
theorem rymLastPacket_eq (name : List UInt8)
    (hline : rymCodeSoh :: ctx.line.reduceOption <+: lastBlock.packet) :
    ∃ ctx' err, rymLastPacket L name ctx = Prog.ret (ctx', err) ∧ (err = none →
      ctx'.stage = .finished ∧ rymCodeSoh :: ctx.line.reduceOption = lastBlock.packet) := by
  have hsz : rymSohPkgSz - 1 = 132 := rfl
  have hcrcSz : rymSohPkgSz - 5 = 128 := rfl
  have hpkgSz : rymSohPkgSz = 128 + 5 := rfl
  have hfull : _ → ctx.line = _ := rymReadData_full (show 132 ≤ 1028 by omega)
  rw [rymLastPacket, hsz, hcrcSz, hpkgSz]
  generalize rymReadData 132 ctx = r at hfull ⊢
  obtain ⟨i, ctx₁⟩ := r
  dsimp only at hfull ⊢
  -- a packet that passes the checks is the last one that the sender made
  have hlast : i = 132 → ctx₁.buf.byte 1 = 0 ∧ ctx₁.buf.byte 2 = 0xFF →
      recvCrc ctx₁ (128 + 5) = crc16 (ctx₁.buf.slice 3 128) →
      ctx₁.buf.byte 3 = 0 ∧ rymCodeSoh :: ctx.line.reduceOption = lastBlock.packet := by
    intro hi hnumber hcrc
    have hpacket := packet_of_buffer (Or.inl ⟨rfl, rfl⟩) (by rw [hnumber.1, hnumber.2]; rfl) hcrc
    have hbytes : rymCodeSoh :: ctx.line.reduceOption =
        (Block.mk (ctx₁.buf.byte 1) (ctx₁.buf.slice 3 128)).packet ++ ctx₁.line.reduceOption := by
      rw [hfull hi, List.reduceOption_append, reduceOption_map_some, ← hpacket, List.cons_append]
    rw [hbytes, ← List.append_nil lastBlock.packet] at hline
    obtain ⟨hblock, hnil⟩ := packet_prefix lastBlock_length
      (Or.inl (Buffer.slice_length ..)) hline
    constructor
    · have hpayload : ctx₁.buf.slice 3 (1 + 127) = List.replicate (127 + 1) 0 :=
        congrArg Block.payload hblock
      rw [Buffer.slice_add, List.replicate_succ] at hpayload
      exact (List.cons.inj hpayload).1
    · rw [hbytes, hblock, List.prefix_nil.1 hnil, List.append_nil]
  split_ifs with hi hnumber hcrc hname
  · exact ⟨_, _, rfl, fun hnone => absurd hnone (Option.some_ne_none _)⟩
  · exact ⟨_, _, rfl, fun hnone => absurd hnone (Option.some_ne_none _)⟩
  · exact ⟨_, _, rfl, fun hnone => absurd hnone (Option.some_ne_none _)⟩
  · rw [not_or, not_not, not_not] at hnumber
    exact absurd (hlast (not_not.1 hi) hnumber (not_not.1 hcrc)).1 hname
  · rw [not_or, not_not, not_not] at hnumber
    exact ⟨_, _, rfl, fun _ => ⟨rfl, (hlast (not_not.1 hi) hnumber (not_not.1 hcrc)).2⟩⟩

/-- On what a sender ends a session with, the receiver ends it too, or stops. -/
theorem rymDoFin_eq (name : List UInt8)
    (hline : ctx.line.reduceOption <+: rymCodeEot :: lastBlock.packet) :
    ∃ ctx' err, rymDoFin L name ctx = Prog.ret (ctx', err) ∧ (err = none → ctx'.stage = .finished ∧
      ctx.line.reduceOption = rymCodeEot :: lastBlock.packet) := by
  have hfirst : _ → (rymPutchar rymCodeNak { ctx with stage := .finishing }).line = _ :=
    line_of_readCode
  rw [rymDoFin]
  generalize rymReadCode (rymPutchar rymCodeNak { ctx with stage := .finishing }) = r at hfirst ⊢
  obtain ⟨code, ctx₁⟩ := r
  dsimp only at hfirst ⊢
  by_cases hcode : code = rymCodeEot
  swap
  · rw [if_pos hcode]
    exact ⟨_, _, rfl, fun hnone => absurd hnone (Option.some_ne_none _)⟩
  subst hcode
  have hline₁ : ctx.line = some rymCodeEot :: ctx₁.line := hfirst (by decide)
  rw [hline₁] at hline
  have hrest : ctx₁.line.reduceOption <+: lastBlock.packet := (List.cons_prefix_cons.1 hline).2
  rw [if_neg (not_not.2 rfl)]
  have hsecond : _ → (rymPutchar rymCodeC (rymPutchar rymCodeAck ctx₁)).line = _ := line_of_readCode
  generalize rymReadCode (rymPutchar rymCodeC (rymPutchar rymCodeAck ctx₁)) = r at hsecond ⊢
  obtain ⟨code, ctx₂⟩ := r
  dsimp only at hsecond ⊢
  split_ifs with hcode
  · exact ⟨_, _, rfl, fun hnone => absurd hnone (Option.some_ne_none _)⟩
  have hline₂ : ctx₁.line = some code :: ctx₂.line := by
    apply hsecond
    rintro rfl
    exact hcode (by decide)
  rw [hline₂] at hrest
  have hsoh := hrest
  rw [Block.packet, if_pos lastBlock_length] at hsoh
  obtain rfl : code = rymCodeSoh := (List.cons_prefix_cons.1 hsoh).1
  obtain ⟨ctx', err, heq, hend⟩ := rymLastPacket_eq (L := L) name hrest
  refine ⟨ctx', err, heq, fun hnone => ?_⟩
  obtain ⟨hstage, hall⟩ := hend hnone
  refine ⟨hstage, ?_⟩
  rw [hline₁, List.reduceOption_cons_of_some, hline₂, List.reduceOption_cons_of_some, hall]

/-! ## Both ends -/

theorem firstBlock_length {fpath : List UInt8} {size : ℕ}
    (hname : (beginText fpath size).length ≤ 128) : (firstBlock fpath size).payload.length = 128 :=
  filled_length hname

/-- The receiver behind the handshake, on the rest of a session. When it has sent a `NAK` the file is
stored, and when it succeeds it has read all of the session. -/
theorem wp_rymRecvFiles_session (hp : part ∈ L.parts) (name : List UInt8) (files : ℕ) {size : ℕ}
    {blocks : List Block} (hrecv : Receiving part size [] ctx s) (hnak : NoNak ctx)
    (hline : ctx.line.reduceOption <+: blocks.flatMap Block.packet ++ sessionEnd)
    (hsized : ∀ b ∈ blocks, b.payload.length = 128) (hfirst : ∀ b ∈ blocks.head?, b.number ≠ 0) :
    (rymRecvFiles L name files ctx).wp (world L env) (fun r s' =>
      (rymCodeNak ∈ r.1.sent → part.Held s'.flash size (payloads blocks) ∧
        (payloads blocks).length ≤ part.len) ∧
      (r.2 = none → ctx.line.reduceOption = blocks.flatMap Block.packet ++ sessionEnd))
      (fun _ _ => True) s := by
  cases files with
  | zero => trivial
  | succ files =>
    rw [rymRecvFiles, Prog.wp_bind, rymDoTrans]
    have hstart : Receiving part size []
        { rymPutchar rymCodeC (rymPutchar rymCodeAck ctx) with stage := .established } s :=
      ⟨hrecv.dlPart, hrecv.total, hrecv.cur, hrecv.fits, hrecv.held⟩
    have hquiet : NoNak
        { rymPutchar rymCodeC (rymPutchar rymCodeAck ctx) with stage := .established } :=
      (hnak.putchar (by decide)).putchar (by decide)
    refine Prog.wp_mono (Prog.wp_and (wp_rymTransLoop hp _ (Nat.lt_succ_self _) hstart)
      ((hquiet.transLoop _).wp s)) ?_ fun _ _ _ => trivial
    rintro ⟨ctx₁, err⟩ s₁ ⟨htrans, hquiet₁⟩
    by_cases herr : err = none
    swap
    · show Prog.wp _ (if err ≠ none then Prog.ret (ctx₁, err) else _) _ _ _
      rw [if_pos herr]
      exact ⟨fun hmem => absurd hmem hquiet₁, fun hnone => absurd hnone herr⟩
    subst herr
    obtain ⟨bs, rest, harr, hrecv₁, hrest⟩ := htrans rfl
    obtain ⟨rfl, heq⟩ := harr.blocks_eq hline hsized fun _ => hfirst
    have hend : ctx₁.line.reduceOption <+: rymCodeEot :: lastBlock.packet := by
      have hheq : ctx.line.reduceOption = _ := heq
      rw [hheq, sessionEnd, List.prefix_append_right_inj, ← hrest] at hline
      exact (List.cons_prefix_cons.1 hline).2
    obtain ⟨ctx₂, err₂, hret, hdone⟩ := rymDoFin_eq (L := L) name hend
    have hheld : part.Held s₁.flash size (payloads bs) ∧ (payloads bs).length ≤ part.len :=
      ⟨hrecv₁.held, hrecv₁.fits⟩
    show Prog.wp _ (rymDoFin L name ctx₁ >>= _) _ _ _
    rw [hret, Prog.ret_bind]
    by_cases herr₂ : err₂ = none
    · subst herr₂
      obtain ⟨hstage, hall⟩ := hdone rfl
      show Prog.wp _ (if ctx₂.stage = .finished then Prog.ret (ctx₂, none) else _) _ _ _
      rw [if_pos hstage]
      refine ⟨fun _ => hheld, fun _ => heq.trans ?_⟩
      rw [← hrest, hall]
      rfl
    · show Prog.wp _ (if err₂ ≠ none then Prog.ret (ctx₂, err₂) else _) _ _ _
      rw [if_pos herr₂]
      exact ⟨fun _ => hheld, fun hnone => absurd hnone herr₂⟩

/-- The receiver on a session, or on the beginning of one. -/
theorem wp_rymDoRecv_session (name : List UInt8) (tmSec files : ℕ) {fpath file : List UInt8}
    (hpath : ∀ b ∈ fpath, b ≠ 0) (hsize : file.length < 2147483648)
    (hname : (beginText fpath file.length).length ≤ 128) (hnak : NoNak ctx)
    (hline : ctx.line.reduceOption <+: sessionBytes fpath file) :
    (rymDoRecv L name tmSec files ctx).wp (world L env) (fun r s' =>
      (rymCodeNak ∈ r.1.sent → ∃ part, falPartitionFind L name = some part ∧
        part.Held s'.flash file.length (payloads (blocksOf file)) ∧
        (payloads (blocksOf file)).length ≤ part.len) ∧
      (r.2 = none → ctx.line.reduceOption = sessionBytes fpath file)) (fun _ _ => True) s := by
  have hlen := firstBlock_length hname
  have hquiet : NoNak { ctx with stage := .none } := hnak
  rw [rymDoRecv, Prog.wp_bind]
  refine Prog.wp_mono (Prog.wp_and (wp_rymDoHandshake name tmSec)
    ((hquiet.handshake name tmSec).wp s)) ?_ fun _ _ _ => trivial
  rintro ⟨ctx₁, err⟩ s₁ ⟨hhand, hquiet₁⟩
  by_cases herr : err = none
  swap
  · show Prog.wp _ (if err ≠ none then Prog.ret (ctx₁, err) else _) _ _ _
    rw [if_pos herr]
    exact ⟨fun hmem => absurd hmem hquiet₁, fun hnone => absurd hnone herr⟩
  subst herr
  obtain ⟨part, first, noise, hfind, hline', -, hnoise, hsized, -, htotal, hrecv⟩ := hhand rfl
  have hbytes : ctx.line.reduceOption =
      noise.reduceOption ++ (first.packet ++ ctx₁.line.reduceOption) := by
    have hline' : ctx.line = _ := hline'
    rw [hline', List.reduceOption_append, List.reduceOption_append, reduceOption_map_some]
  -- what comes in front of the first packet are silences
  have hnil : noise.reduceOption = [] := by
    have hsoh := hline
    rw [hbytes, sessionBytes, Block.packet_soh hlen] at hsoh
    exact noise_eq_nil (fun c hc => (hnoise c hc).1) hsoh
  rw [hbytes, hnil, List.nil_append, sessionBytes] at hline
  obtain ⟨rfl, hrest⟩ := packet_prefix hlen hsized hline
  rw [htotal _ (fileSize_firstBlock hpath hsize)] at hrecv
  refine Prog.wp_mono (wp_rymRecvFiles_session (mem_of_find hfind) name files hrecv hquiet₁ hrest
    (fileBlocks_sized _ _ _) ?_) ?_ fun _ _ _ => trivial
  · intro b hb
    obtain rfl := Option.some.inj hb
    show (1 : UInt8) ≠ 0
    decide
  · rintro ⟨ctx₂, err₂⟩ s₂ ⟨hheld, hall⟩
    refine ⟨fun hmem => ⟨part, hfind, hheld hmem⟩, fun hnone => ?_⟩
    rw [hbytes, hnil, hall hnone]
    rfl

/-- A receiver and a sender on one line: what each of them hears is what the other one puts there, or the
beginning of it, with any silences in between. -/
structure Exchange (L : Layout) (env : Env) (name : List UInt8) (tmSec files tmSend : ℕ) (s : Board)
    (ctx : RymCtx) (cctx : CustomCtx) (r : RymCtx × Option RymErr) (s' : Board) : Prop where
  run : (rymDoRecv L name tmSec files ctx).run (world L env) s = .done r s'
  sent_nil : ctx.sent = [] ∧ cctx.parent.sent = []
  told : ctx.line.reduceOption <+: (rymDoSend tmSend cctx).1.parent.sent
  answered : cctx.parent.line.reduceOption <+: r.1.sent

section Exchange

variable {tmSec files tmSend : ℕ} {cctx : CustomCtx} {r : RymCtx × Option RymErr} {s' : Board}
  {file : List UInt8} (h : Exchange L env name tmSec files tmSend s ctx cctx r s')
  (hdisk : cctx.disk = some file) (hpath : ∀ b ∈ cctx.fpath, b ≠ 0) (hsize : file.length < 2147483648)
  (hname : (beginText cctx.fpath file.length).length ≤ 128)

include h hdisk hpath hsize hname

/-- What the receiver has heard can only be the session of the file. -/
theorem Exchange.received :
    (rymCodeNak ∈ r.1.sent → ∃ part, falPartitionFind L name = some part ∧
      part.Held s'.flash file.length (payloads (blocksOf file)) ∧
      (payloads (blocksOf file)).length ≤ part.len) ∧
    (r.2 = none → ctx.line.reduceOption = sessionBytes cctx.fpath file) := by
  obtain ⟨hrecvNil, hsendNil⟩ := h.sent_nil
  have hsent : (rymDoSend tmSend cctx).1.parent.sent <+: sessionBytes cctx.fpath file := by
    rcases rymDoSend_cases tmSend hdisk hname with ⟨-, hsent, -⟩ | ⟨ctx₁, q, -, hsent, heq, hsends⟩
    · rw [hsent, hsendNil]
      exact List.nil_prefix
    · have hall := hsends.session.sent
      rwa [hsent, hsendNil, List.nil_append, ← heq] at hall
  have hnak : NoNak ctx := by
    rw [NoNak, hrecvNil]
    exact List.not_mem_nil
  have hwp : (rymDoRecv L name tmSec files ctx).wp (world L env) _ _ s :=
    wp_rymDoRecv_session name tmSec files hpath hsize hname hnak (h.told.trans hsent)
  rwa [Prog.wp_iff_run, h.run] at hwp

/-- A receiver that succeeds has read the last packet, and who has sent that succeeds. -/
theorem Exchange.sender_succeeds (hnone : r.2 = none) : (rymDoSend tmSend cctx).2 = none := by
  by_contra hstop
  have hshort := rymDoSend_stopped tmSend hdisk hname hstop
  have htold := h.told.length_le
  rw [(h.received hdisk hpath hsize hname).2 hnone] at htold
  rw [h.sent_nil.2, List.length_nil] at hshort
  omega

/-- A sender that succeeds has heard the `NAK`, in front of which the file was stored. -/
theorem Exchange.stored (hnone : (rymDoSend tmSend cctx).2 = none) :
    ∃ part, falPartitionFind L name = some part ∧ part.bytes s'.flash 0 file.length = file ∧
      128 * (file.length / 128 + 1) ≤ part.len := by
  have hheard := rymDoSend_heardNak tmSend hdisk hname hnone
  obtain ⟨part, hfind, hheld, hroom⟩ :=
    (h.received hdisk hpath hsize hname).1 (h.answered.subset hheard)
  have hlen : 128 * (file.length / 128 + 1) = (payloads (blocksOf file)).length := by
    rw [payloads_blocksOf, List.length_append, List.length_replicate]
    omega
  refine ⟨part, hfind, ?_, hlen ▸ hroom⟩
  rw [hheld.bytes_eq (by omega), payloads_blocksOf, List.take_left]

/-- **Success on either end means that the file is there.** Whatever goes wrong in the flash, and wherever
the line is silent or ends: a receiver that succeeds leaves a sender that does, and when the sender
succeeds the partition holds the file, and has room for its last block. -/
theorem exchange_agrees :
    (r.2 = none → (rymDoSend tmSend cctx).2 = none) ∧
      ((rymDoSend tmSend cctx).2 = none → ∃ part, falPartitionFind L name = some part ∧
        part.bytes s'.flash 0 file.length = file ∧ 128 * (file.length / 128 + 1) ≤ part.len) :=
  ⟨h.sender_succeeds hdisk hpath hsize hname, h.stored hdisk hpath hsize hname⟩

end Exchange

/-- What a receiver has sent when it ends in success. -/
def answersOf : Outcome Halt Board (RymCtx × Option RymErr) → Option (List UInt8)
  | .done (ctx, none) _ => some ctx.sent
  | _ => none

set_option maxRecDepth 20000 in
/-- `f` with three bytes, without a silence. -/
theorem exchange_agrees_threeBytes : ∃ r s',
    Exchange falPartTable calmEnv qbootDownloadPartName 1 1 1 ⟨fun _ _ => 0, 0, []⟩
      (receiverOn ((sessionBytes [102] [1, 2, 3]).map some))
      (senderOf [102] [1, 2, 3] ((rymCodeC :: sessionAnswers [1, 2, 3]).map some)) r s' ∧
    (r.2 = none → (rymDoSend 1 (senderOf [102] [1, 2, 3]
      ((rymCodeC :: sessionAnswers [1, 2, 3]).map some))).2 = none) ∧
    ((rymDoSend 1 (senderOf [102] [1, 2, 3]
        ((rymCodeC :: sessionAnswers [1, 2, 3]).map some))).2 = none →
      ∃ part, falPartitionFind falPartTable qbootDownloadPartName = some part ∧
        part.bytes s'.flash 0 3 = [1, 2, 3] ∧ 128 * (3 / 128 + 1) ≤ part.len) := by
  have hend : answersOf ((rymDoRecv falPartTable qbootDownloadPartName 1 1
      (receiverOn ((sessionBytes [102] [1, 2, 3]).map some))).run (world falPartTable calmEnv)
        ⟨fun _ _ => 0, 0, []⟩) = some (rymCodeC :: sessionAnswers [1, 2, 3] ++ [rymCodeAck]) := by
    decide +kernel
  have hsent : (rymDoSend 1 (senderOf [102] [1, 2, 3]
      ((rymCodeC :: sessionAnswers [1, 2, 3]).map some))).1.parent.sent =
        sessionBytes [102] [1, 2, 3] := by
    decide +kernel
  unfold answersOf at hend
  split at hend
  · rename_i ctx s' hrun
    have h : Exchange falPartTable calmEnv qbootDownloadPartName 1 1 1 ⟨fun _ _ => 0, 0, []⟩
        (receiverOn ((sessionBytes [102] [1, 2, 3]).map some))
        (senderOf [102] [1, 2, 3] ((rymCodeC :: sessionAnswers [1, 2, 3]).map some))
        (ctx, none) s' := by
      refine ⟨hrun, ⟨rfl, rfl⟩, ?_, ?_⟩
      · rw [hsent]
        exact (reduceOption_map_some _).symm ▸ List.prefix_rfl
      · show List.reduceOption ((rymCodeC :: sessionAnswers [1, 2, 3]).map some) <+: ctx.sent
        rw [Option.some.inj hend]
        exact (reduceOption_map_some _).symm ▸ List.prefix_append _ _
    exact ⟨_, _, h, exchange_agrees h rfl (by decide) (by decide) (by decide)⟩
  · cases hend

end RtThreadOta
