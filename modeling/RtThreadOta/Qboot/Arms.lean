import RtThreadOta.Qboot.Decoder

/-!
# The arms against the decoders

`deliver` hands a decoder's reply to a sink: the chunks in order, then the flush. Each arm of
`qbt_dest_part_write` does what `deliver` does with the reply of its decoder, and leaves memory in
step with the decoder's state. `Refines` states this for one arm, so that the loop around the arms is
proved about once for all of them.
-/

namespace RtThreadOta

open Interaction Words

variable {P : Codecs} {τ A : Type} {fuel : ℕ}

/-- Hand over chunks one after the other. -/
def emit (sink : Sink τ) (pos : ℕ) :
    List (List UInt8) → τ → (writeLen : ℕ) → Code (Option (τ × ℕ))
  | [], st, writeLen => Prog.ret (some (st, writeLen))
  | c :: cs, st, writeLen => do
    match ← sink.put st (pos + writeLen) c with
    | none => Prog.ret none
    | some st => emit sink pos cs st (writeLen + sink.putLen c.length)

/-- What follows the chunks of a reply. -/
def deliverEnd (sink : Sink τ) (pos : ℕ) (r : Reply A) :
    Option (τ × ℕ) → Code (Option (A × τ × ℕ))
  | none => Prog.ret none
  | some (st, writeLen) =>
    match r.next with
    | .bad => Prog.ret none
    | .stop h => Prog.halt h
    | .more a =>
      if r.tail = [] then Prog.ret (some (a, st, writeLen))
      else do
        let st ← sink.flush st (pos + writeLen) r.tail
        Prog.ret (some (a, st, writeLen + sink.flushLen r.tail.length))

/-- Hand over a reply. -/
def deliver (sink : Sink τ) (pos : ℕ) (r : Reply A) (st : τ) (writeLen : ℕ) :
    Code (Option (A × τ × ℕ)) := do
  let done ← emit sink pos r.chunks st writeLen
  deliverEnd sink pos r done

/-- The memory that decoding leaves alone. -/
structure Kept (ram ram' : Ram P) : Prop where
  fwInfo : ram'.fwInfo = ram.fwInfo
  aesIv : ram'.aesIv = ram.aesIv

theorem Kept.refl (ram : Ram P) : Kept ram ram := ⟨rfl, rfl⟩

theorem Kept.trans {ram ram' ram'' : Ram P} (h : Kept ram ram') (h' : Kept ram' ram'') :
    Kept ram ram'' := ⟨h'.fwInfo.trans h.fwInfo, h'.aesIv.trans h.aesIv⟩

/-- What an arm must establish, from what `deliver` establishes: memory in step with the decoder,
unless a flush cut `gzip_remain_len` down. -/
def ArmPost (sink : Sink τ) (R : A → Ram P → ℕ → Prop) (ram : Ram P) (tail : List UInt8)
    (Q : ArmEnd P τ → Board → Prop) : Option (A × τ × ℕ) → Board → Prop
  | none, s => ∀ ram', Kept ram ram' → Q (ram', 0, none) s
  | some (a, st, writeLen), s => ∀ ram' cmprsLen, Kept ram ram' →
      (tail = [] ∨ sink.keepLen tail.length = tail.length → R a ram' cmprsLen) →
      Q (ram', cmprsLen, some (st, writeLen)) s

theorem ArmPost.of_kept {sink : Sink τ} {R : A → Ram P → ℕ → Prop} {ram ram' : Ram P}
    {tail : List UInt8} {Q : ArmEnd P τ → Board → Prop} (h : Kept ram ram')
    {r : Option (A × τ × ℕ)} {s : Board} (hr : ArmPost sink R ram tail Q r s) :
    ArmPost sink R ram' tail Q r s := by
  rcases r with _ | ⟨a, st, writeLen⟩
  · intro ram'' h'
    exact hr ram'' (h.trans h')
  · intro ram'' cmprsLen h'
    exact hr ram'' cmprsLen (h.trans h')

section Arms

variable {hd : Handler Op.Ans Board} {sink : Sink τ} {Q : ArmEnd P τ → Board → Prop}
  {E : Option Halt → Board → Prop} {s : Board} {ram : Ram P} {st : τ} {pos writeLen : ℕ}

/-- A chunk in front of a reply is put first. -/
theorem wp_deliver_cons {chunk : List UInt8} {r : Reply A}
    {R : Option (A × τ × ℕ) → Board → Prop} :
    (deliver sink pos (.cons chunk r) st writeLen).wp hd R E s ↔
      (sink.put st (pos + writeLen) chunk).wp hd (fun o s' => match o with
        | none => R none s'
        | some st' => (deliver sink pos r st' (writeLen + sink.putLen chunk.length)).wp hd R E s')
        E s := by
  have hend : ∀ o, deliverEnd sink pos (Reply.cons chunk r) o = deliverEnd sink pos r o :=
    fun o => rfl
  simp only [deliver, Reply.cons, emit, Prog.wp_bind] at hend ⊢
  refine iff_of_eq (congrArg (fun Q' => (sink.put st (pos + writeLen) chunk).wp hd Q' E s) ?_)
  funext o s'
  rcases o with _ | st'
  · simp only [Prog.wp_ret, deliverEnd]
  · simp only [hend]

/-- The same for a chunk that is put only if it is not empty. -/
theorem wp_deliver_consSome {chunk : List UInt8} {r : Reply A} (hzero : sink.putLen 0 = 0)
    {R : Option (A × τ × ℕ) → Board → Prop}
    (h : (deliver sink pos (.consSome chunk r) st writeLen).wp hd R E s) :
    (sink.putSome st (pos + writeLen) chunk).wp hd (fun o s' => match o with
      | none => R none s'
      | some st' => (deliver sink pos r st' (writeLen + sink.putLen chunk.length)).wp hd R E s')
      E s := by
  rw [Reply.consSome] at h
  rw [Sink.putSome]
  by_cases hlen : 0 < chunk.length
  · rw [if_pos hlen] at h ⊢
    exact wp_deliver_cons.1 h
  · have hnil : chunk.length = 0 := by omega
    rw [if_neg hlen] at h ⊢
    rw [Prog.wp_ret, hnil, hzero, Nat.add_zero]
    exact h

/-- The bytes at the front of `cmprs_buf` are the decoder's residue. -/
def framedRel (residue : List UInt8) (ram : Ram P) (cmprsLen : ℕ) : Prop :=
  ram.cmprsBuf.slice 0 cmprsLen = residue ∧ cmprsLen ≤ qbootCmprsBufSize

theorem framedArmLoop_refines {decompress : List UInt8 → List UInt8} (left : ℕ) {cmprsLen : ℕ}
    {bs : List UInt8} (hR : framedRel bs ram cmprsLen)
    (h : (deliver sink pos (drain decompress left bs) st writeLen).wp hd
      (ArmPost sink framedRel ram (drain decompress left bs).tail Q) E s) :
    (framedArmLoop decompress sink left ram cmprsLen st pos writeLen).wp hd Q E s := by
  induction left generalizing ram cmprsLen bs st writeLen s with
  | zero => exact h
  | succ left ih =>
    obtain ⟨rfl, hle⟩ := hR
    rw [framedArmLoop]
    rw [drain, Buffer.slice_length] at h
    by_cases hhdr : cmprsLen < blockHdrSize
    · rw [if_pos hhdr] at h ⊢
      exact h ram cmprsLen (Kept.refl ram) fun _ => ⟨rfl, hle⟩
    rw [if_neg hhdr] at h ⊢
    have hbe : be32 (ram.cmprsBuf.slice 0 cmprsLen) 0 = be32 ram.cmprsBuf.bytes 0 := by
      rw [Buffer.bytes, ← Buffer.take_slice hle, be32_take _ (by simpa [blockHdrSize] using hhdr)]
    rw [hbe] at h
    generalize hsize : toInt32 (be32 ram.cmprsBuf.bytes 0) = blockSize at h ⊢
    dsimp only at h ⊢
    by_cases hneg : blockSize ≤ 0
    · rw [if_pos hneg] at h ⊢
      exact h ram cmprsLen (Kept.refl ram) fun _ => ⟨rfl, hle⟩
    rw [if_neg hneg] at h ⊢
    by_cases hover : intMax < blockSize + blockHdrSize
    · rw [if_pos hover] at h ⊢
      exact h
    rw [if_neg hover] at h ⊢
    by_cases hpart : (cmprsLen : ℤ) < blockSize + blockHdrSize
    · rw [if_pos hpart] at h ⊢
      exact h ram cmprsLen (Kept.refl ram) fun _ => ⟨rfl, hle⟩
    rw [if_neg hpart] at h ⊢
    have hfit : blockSize.toNat + blockHdrSize ≤ cmprsLen := by
      rw [blockHdrSize] at hpart ⊢
      omega
    have hblock : ((ram.cmprsBuf.slice 0 cmprsLen).drop blockHdrSize).take blockSize.toNat =
        ram.cmprsBuf.slice blockHdrSize blockSize.toNat := by
      rw [Buffer.drop_slice (by omega), Buffer.take_slice (by omega), Nat.zero_add]
    rw [hblock] at h
    generalize decompress (ram.cmprsBuf.slice blockHdrSize blockSize.toNat) = out at h ⊢
    by_cases hbig : qbootBufSize < out.length
    · rw [if_pos hbig] at h ⊢
      exact h
    rw [if_neg hbig] at h ⊢
    by_cases hzero : out.length = 0
    · rw [if_pos hzero] at h ⊢
      exact h ram (Kept.refl ram)
    rw [if_neg hzero] at h ⊢
    rw [Prog.wp_bind]
    refine Prog.wp_imp (wp_deliver_cons.1 h) fun o s' ho => ?_
    rcases o with _ | st'
    · exact ho _ ⟨rfl, rfl⟩
    -- the bytes behind the block move to the front
    have hrest : framedRel ((ram.cmprsBuf.slice 0 cmprsLen).drop (blockSize.toNat + blockHdrSize))
        { ram with
          cryptBuf := ram.cryptBuf.store 0 out
          cmprsBuf := ram.cmprsBuf.store 0 (ram.cmprsBuf.slice (blockSize.toNat + blockHdrSize)
            (cmprsLen - (blockSize.toNat + blockHdrSize))) }
        (cmprsLen - (blockSize.toNat + blockHdrSize)) := by
      have hself : ∀ data : List UInt8, data.length ≤ qbootCmprsBufSize →
          (ram.cmprsBuf.store 0 data).slice 0 data.length = data :=
        fun data hd => Buffer.slice_store_self (by omega)
      refine ⟨?_, by omega⟩
      rw [Buffer.drop_slice hfit, Nat.zero_add]
      have := hself (ram.cmprsBuf.slice (blockSize.toNat + blockHdrSize)
        (cmprsLen - (blockSize.toNat + blockHdrSize))) (by rw [Buffer.slice_length]; omega)
      rwa [Buffer.slice_length] at this
    refine ih hrest (Prog.wp_imp ho fun r s'' hr => ArmPost.of_kept ?_ hr)
    exact ⟨rfl, rfl⟩

/-- zlib's state and the bytes held back are the decoder's. -/
def gzipRel (a : P.inflater.State × List UInt8) (ram : Ram P) (cmprsLen : ℕ) : Prop :=
  ram.strm = a.1 ∧ ram.gzipRemainBuf.slice 0 ram.gzipRemainLen = a.2 ∧
    ram.gzipRemainLen < gzipRemainBufSize ∧ cmprsLen = 0

theorem gzipArmLoop_refines (hzero : sink.putLen 0 = 0) {cmprsLen : ℕ}
    {a : P.inflater.State × List UInt8} (hR : gzipRel a ram 0)
    (h : (deliver sink pos (inflateRounds P.inflater cmprsLen fuel a.1 ram.nextIn a.2) st
      writeLen).wp hd (ArmPost sink gzipRel ram
        (inflateRounds P.inflater cmprsLen fuel a.1 ram.nextIn a.2).tail Q) E s) :
    (gzipArmLoop sink cmprsLen fuel ram st pos writeLen).wp hd Q E s := by
  induction fuel generalizing ram a st writeLen s with
  | zero => exact h
  | succ fuel ih =>
    obtain ⟨strm, remain⟩ := a
    obtain ⟨hstrm, hslice, hlt, -⟩ := hR
    dsimp only at hstrm hslice
    have hlen : ram.gzipRemainLen = remain.length := by rw [← hslice, Buffer.slice_length]
    rw [gzipArmLoop, hslice, hlen, hstrm]
    rw [inflateRounds] at h
    rcases hinf : P.inflater.inflate strm ram.nextIn (qbootBufSize - remain.length) with
      ⟨strm', used, _ | out⟩
    · simp only [hinf] at h ⊢
      exact h _ ⟨rfl, rfl⟩
    simp only [hinf] at h ⊢
    generalize remain ++ out = decmprs at h ⊢
    have hkeep : decmprs.length % gzipRemainBufSize < gzipRemainBufSize :=
      Nat.mod_lt _ (by decide)
    have hdrop : (decmprs.drop (decmprs.length - decmprs.length % gzipRemainBufSize)).length =
        decmprs.length % gzipRemainBufSize := by
      have := Nat.mod_le decmprs.length gzipRemainBufSize
      rw [List.length_drop]
      omega
    have htake : (decmprs.take (decmprs.length - decmprs.length % gzipRemainBufSize)).length =
        decmprs.length - decmprs.length % gzipRemainBufSize := by
      rw [List.length_take]
      omega
    have hstore : ∀ data : List UInt8, data.length ≤ gzipRemainBufSize →
        (ram.gzipRemainBuf.store 0 data).slice 0 data.length = data :=
      fun data hdata => Buffer.slice_store_self (by omega)
    have hrest := hstore (decmprs.drop (decmprs.length - decmprs.length % gzipRemainBufSize))
      (by omega)
    rw [hdrop] at hrest
    rw [Prog.wp_bind]
    refine Prog.wp_imp (wp_deliver_consSome hzero h) fun o s' ho => ?_
    rcases o with _ | st'
    · exact ho _ ⟨rfl, rfl⟩
    dsimp only at ho ⊢
    rw [htake, Reply.consSome_tail] at ho
    by_cases hshort : out.length < qbootBufSize - remain.length
    · rw [if_pos hshort] at ho ⊢
      by_cases hflush : cmprsLen < qbootCmprsReadSize ∧
          0 < decmprs.length % gzipRemainBufSize
      · have hne : decmprs.drop (decmprs.length - decmprs.length % gzipRemainBufSize) ≠ [] :=
          List.ne_nil_of_length_pos (by omega)
        simp only [deliver, emit, Prog.ret_bind, deliverEnd, if_pos hflush.1, if_neg hne, hdrop,
          Prog.wp_bind] at ho
        rw [if_pos hflush, Prog.wp_bind]
        refine Prog.wp_imp ho fun st'' s'' hpost => ?_
        refine hpost _ 0 ⟨rfl, rfl⟩ fun hk => ⟨rfl, ?_, ?_, rfl⟩
        all_goals
          have hk := hk.resolve_left hne
          rw [hdrop] at hk
          simp only [hk]
        · exact hrest
        · exact hkeep
      · have hnil : (if cmprsLen < qbootCmprsReadSize then
            decmprs.drop (decmprs.length - decmprs.length % gzipRemainBufSize) else []) = [] := by
          by_cases hc : cmprsLen < qbootCmprsReadSize
          · rw [if_pos hc]
            exact List.eq_nil_of_length_eq_zero (by omega)
          · exact if_neg hc
        simp only [deliver, emit, Prog.ret_bind, deliverEnd, hnil, if_true] at ho
        rw [if_neg hflush]
        exact ho _ 0 ⟨rfl, rfl⟩ fun _ => ⟨rfl, hrest, hkeep, rfl⟩
    · rw [if_neg hshort] at ho ⊢
      refine ih (a := (strm', decmprs.drop (decmprs.length - decmprs.length % gzipRemainBufSize)))
        ⟨rfl, hrest, hkeep, rfl⟩ (Prog.wp_imp ho fun r s'' hr => ArmPost.of_kept ?_ hr)
      exact ⟨rfl, rfl⟩

theorem noneArm_refines {cmprsLen : ℕ} {piece : List UInt8}
    (hR : ram.cmprsBuf.slice 0 cmprsLen = piece)
    (h : (deliver sink pos (noneDecoder.feed () piece) st 0).wp hd
      (ArmPost sink (fun _ _ len => len = 0) ram (noneDecoder.feed () piece).tail Q) E s) :
    (noneArm sink ram cmprsLen st pos).wp hd Q E s := by
  rw [noneArm, Prog.wp_bind, hR]
  refine Prog.wp_imp (wp_deliver_cons (r := ⟨[], [], .more ()⟩).1 h) fun o s' ho => ?_
  rcases o with _ | st'
  · exact ho ram (Kept.refl ram)
  · simp only [deliver, emit, Prog.ret_bind, deliverEnd, if_true, Nat.zero_add] at ho
    rw [← hR, Buffer.slice_length] at ho
    exact ho ram 0 (Kept.refl ram) fun _ => rfl

end Arms

/-! ## One statement for all arms -/

/-- A piece was read behind the `cmprs_len` bytes in `cmprs_buf`. -/
structure Loaded (ram ram' : Ram P) (cmprsLen : ℕ) (piece : List UInt8) : Prop where
  cmprsBuf : ram'.cmprsBuf.slice 0 (cmprsLen + piece.length) =
    ram.cmprsBuf.slice 0 cmprsLen ++ piece
  strm : ram'.strm = ram.strm
  gzipRemainLen : ram'.gzipRemainLen = ram.gzipRemainLen
  gzipRemainBuf : ram'.gzipRemainBuf = ram.gzipRemainBuf

/-- An arm does what its decoder says, memory in step by `R`. -/
structure Refines (sink : Sink τ) (fuel cmprsType : ℕ) (d : Decoder)
    (R : d.State → Ram P → ℕ → Prop) : Prop where
  init : ∀ {ram ram' : Ram P}, qbtFwDecompressInit cmprsType ram = some ram' → R d.init ram' 0
  le : ∀ {a ram cmprsLen}, R a ram cmprsLen → cmprsLen ≤ qbootCmprsBufSize
  /-- where a piece would overrun `cmprs_buf`, the decoder stops -/
  overrun : ∀ {a ram cmprsLen} {piece : List UInt8}, R a ram cmprsLen →
    piece.length ≤ qbootCmprsReadSize → qbootCmprsBufSize < cmprsLen + piece.length →
    d.feed a piece = ⟨[], [], .stop .undefined⟩
  chunk_le : ∀ {a ram cmprsLen} {piece : List UInt8}, R a ram cmprsLen →
    piece.length ≤ qbootCmprsReadSize → ∀ c ∈ (d.feed a piece).chunks, c.length ≤ qbootBufSize
  step : ∀ {a ram ram' cmprsLen} {piece : List UInt8} {hd : Handler Op.Ans Board}
    {Q : ArmEnd P τ → Board → Prop} {E : Option Halt → Board → Prop} {s : Board} {st : τ} {pos : ℕ},
    R a ram cmprsLen → Loaded ram ram' cmprsLen piece →
    cmprsLen + piece.length ≤ qbootCmprsBufSize →
    (deliver sink pos (d.feed a piece) st 0).wp hd
      (ArmPost sink R ram' (d.feed a piece).tail Q) E s →
    (decompressArm fuel sink cmprsType ram' (cmprsLen + piece.length) st pos).wp hd Q E s

theorem none_refines (sink : Sink τ) :
    Refines (P := P) sink fuel qbootAlgoCmprsNone noneDecoder fun _ _ cmprsLen => cmprsLen = 0 where
  init _ := rfl
  le h := by omega
  overrun h hpiece hover := by
    rw [qbootCmprsReadSize] at hpiece
    rw [qbootCmprsBufSize] at hover
    omega
  chunk_le _ hpiece c hc := by
    obtain rfl := List.mem_singleton.1 hc
    exact Nat.le_trans hpiece (by decide)
  step {a ram ram' cmprsLen piece hd Q E s st pos} hR hload _ h := by
    subst hR
    have hbuf := hload.cmprsBuf
    rw [Buffer.slice_zero_len, List.nil_append] at hbuf
    rw [decompressArm, if_pos rfl]
    exact noneArm_refines hbuf h

theorem gzip_refines {sink : Sink τ} (hzero : sink.putLen 0 = 0) :
    Refines sink fuel qbootAlgoCmprsGzip (gzipDecoder P.inflater fuel) gzipRel where
  init h := by
    rw [qbtFwDecompressInit, if_neg (by decide), if_pos rfl] at h
    obtain rfl := Option.some.inj h
    exact ⟨rfl, rfl, Nat.succ_pos _, rfl⟩
  le h := by
    obtain ⟨-, -, -, rfl⟩ := h
    exact Nat.zero_le _
  overrun h hpiece hover := by
    obtain ⟨-, -, -, rfl⟩ := h
    rw [qbootCmprsReadSize] at hpiece
    rw [qbootCmprsBufSize] at hover
    omega
  chunk_le {a ram cmprsLen piece} h _ c hc := by
    obtain ⟨-, hrem, hlt, -⟩ := h
    refine ((inflateRounds_chunks P.inflater piece.length fuel a.1 piece a.2).2 c hc).2.2 ?_
    rw [← hrem, Buffer.slice_length]
    exact Nat.le_trans (Nat.le_of_lt hlt) (by decide)
  step {a ram ram' cmprsLen piece hd Q E s st pos} hR hload _ h := by
    obtain ⟨hstrm, hrem, hlt, rfl⟩ := hR
    have hbuf := hload.cmprsBuf
    rw [Buffer.slice_zero_len, List.nil_append] at hbuf
    rw [decompressArm, if_neg (by decide), if_pos rfl, gzipArm, hbuf]
    have hrel : gzipRel a { ram' with nextIn := piece } 0 :=
      ⟨hload.strm.trans hstrm, by rw [← hrem, hload.gzipRemainLen, hload.gzipRemainBuf],
        hload.gzipRemainLen ▸ hlt, rfl⟩
    rw [Nat.zero_add]
    refine gzipArmLoop_refines hzero hrel (Prog.wp_imp h fun r s' hr => ArmPost.of_kept ?_ hr)
    exact ⟨rfl, rfl⟩

theorem framed_refines {sink : Sink τ} {cmprsType : ℕ} {decompress : List UInt8 → List UInt8}
    (hinit : ∀ ram : Ram P, qbtFwDecompressInit cmprsType ram = some ram)
    (harm : ∀ (ram : Ram P) cmprsLen st pos, decompressArm fuel sink cmprsType ram cmprsLen st pos =
      framedArm decompress sink ram cmprsLen st pos) :
    Refines sink fuel cmprsType (framedDecoder decompress) (framedRel (P := P)) where
  init h := by
    rw [hinit] at h
    obtain rfl := Option.some.inj h
    exact ⟨rfl, Nat.zero_le _⟩
  le h := h.2
  overrun {a ram cmprsLen piece} h _ hover := by
    obtain ⟨rfl, -⟩ := h
    exact framedDecoder_overrun (by rwa [Buffer.slice_length])
  chunk_le {residue ram cmprsLen piece} h _ c hc := by
    obtain ⟨rfl, -⟩ := h
    rcases Nat.lt_or_ge qbootCmprsBufSize ((ram.cmprsBuf.slice 0 cmprsLen).length + piece.length)
      with hover | hfit
    · rw [framedDecoder_overrun hover] at hc
      cases hc
    · rw [framedDecoder_feed hfit] at hc
      exact ((drain_chunks _ _).2 c hc).2
  step {a ram ram' cmprsLen piece hd Q E s st pos} hR hload hle h := by
    obtain ⟨rfl, -⟩ := hR
    have hfit : (ram.cmprsBuf.slice 0 cmprsLen).length + piece.length ≤ qbootCmprsBufSize := by
      rwa [Buffer.slice_length]
    rw [framedDecoder_feed hfit, Buffer.slice_length] at h
    rw [harm, framedArm]
    exact framedArmLoop_refines _ ⟨hload.cmprsBuf, hle⟩ h

/-- The arm of a supported compression type refines its decoder, whatever the sink. -/
theorem decoderOf_refines {cmprsType : ℕ} {d : Decoder} (h : decoderOf P fuel cmprsType = some d) :
    ∃ R : d.State → Ram P → ℕ → Prop, ∀ {τ : Type} (sink : Sink τ), sink.putLen 0 = 0 →
      Refines sink fuel cmprsType d R := by
  rw [decoderOf] at h
  split at h
  · rename_i hc
    obtain rfl := Option.some.inj h
    exact ⟨_, fun sink _ => hc ▸ none_refines sink⟩
  split at h
  · rename_i hc
    obtain rfl := Option.some.inj h
    exact ⟨_, fun sink hzero => hc ▸ gzip_refines hzero⟩
  split at h
  · rename_i hc
    obtain rfl := Option.some.inj h
    subst hc
    exact ⟨_, fun sink _ => framed_refines (fun _ => rfl) fun _ _ _ _ => rfl⟩
  split at h
  · rename_i hc
    obtain rfl := Option.some.inj h
    subst hc
    exact ⟨_, fun sink _ => framed_refines (fun _ => rfl) fun _ _ _ _ => rfl⟩
  · cases h

end RtThreadOta
