import RtThreadOta.RoundTrip.Packed

/-!
# Uncompressed packages

The release of an uncompressed package writes the plaintext in 1024-byte pieces until `raw_size`
bytes are out. The padding of an encrypted file is never stripped: it is written behind the file
unless the file ends on a piece boundary. So the header is damaged exactly when that padding reaches
into the tail.
-/

namespace RtThreadOta

open Interaction Nor Words

variable {L : Layout} {P : Codecs} {K : PackCodecs} {dst src : FalPartition} {ram : Ram P}
  {dstName srcName : PartName} {encrypt : Bool} {pi : PackInfo} {file : List UInt8} {fuel : ℕ}
  {env : Env} {s : Board}

/-- What driving the uncompressed decoder puts out: whole pieces until `raw_size` bytes are out. -/
theorem noneDecoder_drive {rawSize pos avail : ℕ} {a : noneDecoder.State} {rest : List UInt8}
    (hraw : rawSize ≤ pos + rest.length) (havail : rest.length ≤ avail)
    (hlt : pos + rest.length < 4294967296)
    (hfuel : roundUp (rawSize - pos) qbootCmprsReadSize < fuel * qbootCmprsReadSize)
    {T : Trace} (hT : T = noneDecoder.drive destPolicy rawSize fuel a pos avail rest) :
    T.fin = .reached ∧ T.out = rest.take (roundUp (rawSize - pos) qbootCmprsReadSize) ∧
      T.flushes = [] ∧ ∀ bs ∈ T.puts, bs ≠ [] := by
  have h1024 : qbootCmprsReadSize = 1024 := rfl
  induction fuel generalizing a pos avail rest T with
  | zero => omega
  | succ fuel ih =>
    by_cases hpos : pos < rawSize
    swap
    · rw [Decoder.drive_reached (by omega)] at hT
      have hzero : rawSize - pos = 0 := by omega
      rw [hT, hzero, roundUp_zero (by omega), List.take_zero]
      exact ⟨rfl, rfl, rfl, fun bs hbs => by cases hbs⟩
    have htake : (rest.take qbootCmprsReadSize).length = min qbootCmprsReadSize rest.length :=
      List.length_take
    rw [Decoder.drive_piece hpos (by omega)] at hT
    -- the reply to a piece is the piece
    have hbytes : destPolicy.chunkBytes (rawSize - pos)
        (noneDecoder.feed a (rest.take qbootCmprsReadSize)) = rest.take qbootCmprsReadSize := by
      show [rest.take qbootCmprsReadSize].flatMap (fun bs => bs) = _
      rw [List.flatMap_singleton]
    have htail : destPolicy.tailBytes (rawSize - pos)
        (noneDecoder.feed a (rest.take qbootCmprsReadSize)) = [] := rfl
    have hnext : (noneDecoder.feed a (rest.take qbootCmprsReadSize)).next = .more noneDecoder.init :=
      rfl
    rw [hnext] at hT
    dsimp only at hT
    rw [hbytes, htail, List.append_nil, u32_of_lt (by omega)] at hT
    have hdrop : (rest.drop qbootCmprsReadSize).length = rest.length - qbootCmprsReadSize :=
      List.length_drop
    have hround : roundUp (rawSize - pos) qbootCmprsReadSize =
        qbootCmprsReadSize + roundUp (rawSize - (pos + qbootCmprsReadSize)) qbootCmprsReadSize := by
      rw [roundUp, roundUp, h1024]
      omega
    have hfuel' : roundUp (rawSize - (pos + (rest.take qbootCmprsReadSize).length))
        qbootCmprsReadSize < fuel * qbootCmprsReadSize := by
      rw [htake]
      rcases Nat.le_total qbootCmprsReadSize rest.length with hle | hle
      · rw [Nat.min_eq_left hle]
        rw [Nat.succ_mul] at hfuel
        omega
      · have hzero : rawSize - (pos + rest.length) = 0 := by omega
        have hpos1024 : 0 < qbootCmprsReadSize := Nat.succ_pos _
        rw [Nat.min_eq_right hle, hzero, roundUp_zero hpos1024]
        rw [h1024] at hfuel hround ⊢
        omega
    generalize hT' : noneDecoder.drive _ _ _ _ _ _ _ = T' at hT
    obtain ⟨hfin, hout, hflushes, hputs⟩ :=
      ih (by omega) (by omega) (by omega) hfuel' hT'.symm
    subst hT
    refine ⟨hfin, ?_, hflushes, fun bs hbs => ?_⟩
    · rw [Trace.after_out, hbytes, htail, List.append_nil, hout]
      rw [hround, List.take_add]
      rcases Nat.le_total qbootCmprsReadSize rest.length with hle | hle
      · rw [htake, Nat.min_eq_left hle]
      · rw [List.drop_of_length_le hle, List.take_nil, List.take_nil]
    · rw [Trace.after_puts] at hbs
      rcases List.mem_append.1 hbs with hbs | hbs
      · obtain ⟨c, hc, rfl⟩ := List.mem_map.1 hbs
        obtain rfl := List.mem_singleton.1 hc
        intro hnil
        have hlen := congrArg List.length hnil
        rw [List.length_nil] at hlen
        have hput : (destPolicy.put (rawSize - pos) (rest.take qbootCmprsReadSize)).length =
            min qbootCmprsReadSize rest.length := htake
        omega
      · exact hputs bs hbs

/-- What the package of an uncompressed file decodes to, before it is cut to pieces. -/
def storedPlain (encrypt : Bool) (file : List UInt8) : List UInt8 :=
  if encrypt then padded file else file

/-- The run of the decoder on the package of an uncompressed file. -/
theorem uncompressed_drive (hinv : encrypt = true → CipherInverts P K)
    (h : Packed L dst src dstName srcName K .none encrypt pi file ram s.flash)
    (hfuel : file.length < fuel) {T : Trace}
    (hT : T = noneDecoder.drive destPolicy (toolHdr K .none encrypt pi file).info.rawSize fuel
      noneDecoder.init 0
      (src.len - fwInfoSize) (src.plain P s.flash (toolHdr K .none encrypt pi file).info)) :
    T.fin = .reached ∧
      T.out = (storedPlain encrypt file).take (roundUp file.length qbootCmprsReadSize) ∧
      T.flushes = [] ∧ ∀ bs ∈ T.puts, bs ≠ [] := by
  have hplain : src.plain P s.flash (toolHdr K .none encrypt pi file).info =
      storedPlain encrypt file := h.plain hinv
  have hbody := h.fits
  have hlen := L.len_lt h.src_mem
  have hle : file.length ≤ (storedPlain encrypt file).length ∧
      (storedPlain encrypt file).length = (toolBody K .none encrypt file).length := by
    cases encrypt with
    | false => exact ⟨Nat.le_refl _, rfl⟩
    | true =>
      have hpad : (storedPlain true file).length = (file.length / 16 + 1) * 16 := padded_length file
      have hcrypt : (toolBody K .none true file).length = (file.length / 16 + 1) * 16 :=
        crypt_length K _ _ file
      omega
  have h1024 : qbootCmprsReadSize = 1024 := rfl
  rw [h.rawSize, hplain] at hT
  have hdrive := noneDecoder_drive (by omega) (by omega) (by omega)
    (by rw [roundUp, h1024]; omega) hT
  rwa [Nat.sub_zero] at hdrive

/-- The bytes written do not reach into the header. -/
def PaddingFits (dst : FalPartition) (encrypt : Bool) (file : List UInt8) : Prop :=
  encrypt = false ∨ 1024 ∣ file.length ∨ (padded file).length ≤ dst.tail

/-- How many bytes are written: in front of the header and where the target is erased. -/
theorem storedPlain_fits (hfile : file.length ≤ dst.tail)
    (h : PaddingFits dst encrypt file) :
    ((storedPlain encrypt file).take (roundUp file.length qbootCmprsReadSize)).length ≤ dst.tail ∧
      ((storedPlain encrypt file).take (roundUp file.length qbootCmprsReadSize)).length ≤
        eraseStop L dst file.length := by
  have hstop := le_eraseStop L dst file.length
  obtain ⟨k, hk⟩ := dvd_eraseStop L dst file.length
  rw [List.length_take]
  rcases h with rfl | hdvd | hpad
  · have hplain : (storedPlain false file).length = file.length := rfl
    omega
  · have hround : roundUp file.length qbootCmprsReadSize = file.length :=
      roundUp_of_dvd (Nat.succ_pos _) hdvd
    omega
  · cases encrypt with
    | false =>
      have hplain : (storedPlain false file).length = file.length := rfl
      omega
    | true =>
      have hplain : (storedPlain true file).length = (padded file).length := rfl
      have hlen := padded_length file
      by_cases hdvd : 1024 ∣ file.length
      · have hround : roundUp file.length qbootCmprsReadSize = file.length :=
          roundUp_of_dvd (Nat.succ_pos _) hdvd
        omega
      · omega

/-- The update of an uncompressed package: the pieces it decrypts are those of the one-shot
decryption of the whole body (a last block that holds only padding is not read), it succeeds, and the
target holds the file and the header. -/
def UncompressedRoundTrip (L : Layout) (fuel : ℕ) (env : Env) (dst src : FalPartition)
    (dstName srcName : PartName) (hdr : RblHdr) (file : List UInt8) (ram : Ram P) (s : Board) :
    Prop :=
  ∃ ram' s', (qbtFwUpdate L fuel dstName srcName ram).run (world L env) s = .done (ram', true) s' ∧
    dst.bytes s'.flash 0 file.length = file ∧
    dst.bytes s'.flash dst.tail fwInfoSize = hdr.bytes ∧
    ∃ pieces unread, dst.programs s'.log =
        dst.programs s.log ++ inRow 0 pieces ++ [(dst.tail, hdr.bytes)] ∧
      pieces.flatten ++ unread = src.plain P s.flash hdr.info ∧
      (unread = [] ∨ 1024 ∣ file.length ∧ pieces.flatten = file)

/-- What is not read is padding. -/
theorem storedPlain_unread (file : List UInt8) (encrypt : Bool) :
    ∃ unread, (storedPlain encrypt file).take (roundUp file.length qbootCmprsReadSize) ++ unread =
        storedPlain encrypt file ∧
      (unread = [] ∨ 1024 ∣ file.length ∧
        (storedPlain encrypt file).take (roundUp file.length qbootCmprsReadSize) = file) := by
  refine ⟨_, List.take_append_drop _ _, ?_⟩
  have hle := le_roundUp file.length (k := qbootCmprsReadSize) (Nat.succ_pos _)
  cases encrypt with
  | false => exact Or.inl (List.drop_of_length_le hle)
  | true =>
    have hlen := padded_length file
    by_cases hdvd : 1024 ∣ file.length
    · have hround : roundUp file.length qbootCmprsReadSize = file.length :=
        roundUp_of_dvd (Nat.succ_pos _) hdvd
      rw [hround]
      exact Or.inr ⟨hdvd, List.take_left' rfl⟩
    · refine Or.inl (List.drop_of_length_le ?_)
      show (padded file).length ≤ _
      have h1024 : qbootCmprsReadSize = 1024 := rfl
      obtain ⟨k, hk⟩ := dvd_roundUp file.length qbootCmprsReadSize
      rw [h1024] at hk hle ⊢
      omega

/-- The padding of a file that cannot be stripped is written over the tail and damages the header. -/
theorem not_uncompressedRoundTrip (hcalm : Calm env)
    (hinv : encrypt = true → CipherInverts P K)
    (h : Packed L dst src dstName srcName K .none encrypt pi file ram s.flash)
    (hfuel : file.length < fuel) (hover : ¬ PaddingFits dst encrypt file) :
    ¬ UncompressedRoundTrip L fuel env dst src dstName srcName (toolHdr K .none encrypt pi file)
      file ram s := by
  rintro ⟨ram', s', hrun, -, htail, -⟩
  rw [PaddingFits, not_or, not_or] at hover
  obtain ⟨henc, hdvd, hpad⟩ := hover
  rw [Bool.not_eq_false] at henc
  subst henc
  have hdst := h.dst_mem
  have hlen := Layout.tail_add hdst
  have hfits := h.file_fits
  have hpadded := padded_length file
  have h96 : fwInfoSize = 96 := rfl
  have hd : decoderOf P fuel (toolHdr K .none true pi file).info.cmprsType = some noneDecoder := by
    rw [toolHdr_cmprsType]
    rfl
  obtain ⟨-, hout, -, -⟩ := uncompressed_drive hinv h hfuel rfl
  -- all of the padded file comes out
  have hround : (padded file).length ≤ roundUp file.length qbootCmprsReadSize := by
    obtain ⟨k, hk⟩ := dvd_roundUp file.length qbootCmprsReadSize
    have hle := le_roundUp file.length (k := qbootCmprsReadSize) (Nat.succ_pos _)
    have h1024 : qbootCmprsReadSize = 1024 := rfl
    rw [h1024] at hk hle ⊢
    omega
  have hplain : storedPlain true file = padded file := rfl
  rw [hplain, List.take_of_length_le hround] at hout
  have hrel : (qbtFwRelease L fuel dstName srcName ram).wp (world L env)
      (fun r s' => r.2 = true → dst.byte s'.flash dst.tail ≠ 82) (fun _ _ => True) s := by
    refine wp_qbtFwRelease h.releasable (hcalm.readsQuiet src) (fun _ _ => trivial) hd rfl
      (fun _ _ t _ => ?_) (fun _ _ _ => ?_) (fun _ _ _ => ?_) (fun _ _ _ => ?_) (fun _ _ _ _ => ?_)
      (fun _ ram' s' _ hr _ => ?_) fun _ _ _ => trivial
    · rw [hcalm]
      exact Fault.none_quiet
    iterate 4 exact fun hfalse => Bool.noConfusion hfalse
    -- the header's first byte is programmed over a byte of the padding
    obtain ⟨m₁, hw, hm, -⟩ := hr
    have hbytes : (toolHdr K .none true pi file).info.bytes.length = fwInfoSize :=
      Buffer.bytes_length _
    have hold : dst.byte m₁ dst.tail = (padded file).getD dst.tail 0xFF := by
      rw [← hout]
      exact hw.byte dst.tail (by omega) (Or.inr (eraseStart_le L dst _))
    have hold' : dst.byte m₁ dst.tail = UInt8.ofNat (16 - file.length % 16) := by
      rw [hold, padded, List.getD_append_right _ _ _ _ hfits, List.getD_eq_getElem _ _ (by
        rw [List.length_replicate]
        omega), List.getElem_replicate]
    rw [hm, FalPartition.byte_programmed (Nat.le_refl _) (by omega), Nat.sub_self, hold']
    have hfirst : (toolHdr K .none true pi file).info.bytes.getD 0 0 = 82 := by
      rw [RblHdr.info_bytes]
      rfl
    rw [hfirst]
    have hpadByte : ∀ n < 17, UInt8.ofNat n &&& 82 ≠ 82 := by decide
    exact hpadByte _ (by omega)
  have hup := wp_qbtFwUpdate_of_release dst (fun m _ => dst.byte m dst.tail ≠ 82) hrel
  rw [Prog.wp_iff_run, hrun] at hup
  refine hup rfl ?_
  have hbyte := congrArg (fun bs => bs.getD 0 0) htail
  rw [FalPartition.bytes, Nor.read_getD _ _ _ (by omega), Nat.add_zero] at hbyte
  exact hbyte

/-- The update of an uncompressed package restores the file exactly when the padding of an encrypted
file is not written or ends in front of the header. -/
theorem uncompressedRoundTrip_iff (hcalm : Calm env)
    (hinv : encrypt = true → CipherInverts P K)
    (h : Packed L dst src dstName srcName K .none encrypt pi file ram s.flash)
    (hfuel : file.length < fuel) :
    UncompressedRoundTrip L fuel env dst src dstName srcName (toolHdr K .none encrypt pi file) file
        ram s ↔
      encrypt = false ∨ 1024 ∣ file.length ∨ (padded file).length ≤ dst.tail := by
  refine ⟨fun hround => ?_, fun hpad => ?_⟩
  · by_contra hover
    exact not_uncompressedRoundTrip hcalm hinv h hfuel hover hround
  have hdst := h.dst_mem
  have hraw := h.rawSize
  have hpos := h.file_pos
  have hfits := h.file_fits
  obtain ⟨hfit, herased⟩ := storedPlain_fits (L := L) hfits hpad
  have hd : decoderOf P fuel (toolHdr K .none encrypt pi file).info.cmprsType = some noneDecoder := by
    rw [toolHdr_cmprsType]
    rfl
  generalize hT : noneDecoder.drive destPolicy (toolHdr K .none encrypt pi file).info.rawSize fuel
    noneDecoder.init 0 (src.len - fwInfoSize)
    (src.plain P s.flash (toolHdr K .none encrypt pi file).info) = T
  obtain ⟨hfin, hout, hflushes, hputs⟩ := uncompressed_drive hinv h hfuel hT.symm
  rw [← hout] at hfit herased
  rw [← hraw] at herased
  have hup : (qbtFwUpdate L fuel dstName srcName ram).wp (world L env)
      (fun r s' => r.2 = true ∧ Released L dst (toolHdr K .none encrypt pi file).info s.flash T.out
        s'.flash) (fun _ _ => False) s := by
    refine wp_qbtFwUpdate_clean hcalm h.releasable (by omega) hd hT.symm hfin hputs hfit herased
      (RblHdr.infoCheck _) (fun hverify => absurd hverify toolHdr_verifyType) ?_
      fun ram' s' _ hrel => ⟨rfl, hrel⟩
    rw [hraw, qbootBufSize]
    omega
  have hprog := wp_qbtFwUpdate_of_release dst
    (fun _ ws => ∃ cs, cs.flatten = T.out ∧
      (∀ c ∈ cs, decoderUnit (toolHdr K .none encrypt pi file).info.cmprsType ∣ c.length) ∧
      ws = dst.programs s.log ++ inRow 0 cs ++
        [(dst.tail, (toolHdr K .none encrypt pi file).info.bytes)])
    (wp_qbtFwRelease_programs h.releasable (hcalm.readsQuiet src) hd hT.symm fun p hp => by
      rw [hflushes] at hp
      cases hp)
  obtain ⟨⟨ram', ok⟩, s', hrun, rfl, hrel⟩ := Prog.run_done_of_wp hup
  rw [Prog.wp_iff_run, hrun] at hprog
  obtain ⟨cs, hcs, -, hws⟩ := hprog rfl
  have hle : file.length ≤ roundUp file.length qbootCmprsReadSize :=
    le_roundUp _ (Nat.succ_pos _)
  have hplainLen : file.length ≤ (storedPlain encrypt file).length := by
    cases encrypt with
    | false => exact Nat.le_refl _
    | true =>
      show file.length ≤ (padded file).length
      rw [padded_length]
      omega
  refine ⟨ram', s', hrun, ?_, ?_, ?_⟩
  · rw [hrel.bytes hdst (n := file.length) (by rw [hout, List.length_take]; omega) hfits
      (by rw [hraw]; exact le_eraseStop L dst _), hout, List.take_take, Nat.min_eq_left hle]
    cases encrypt with
    | false => exact List.take_length
    | true => exact List.take_left' rfl
  · rw [hrel.tail_eq hdst hfit, RblHdr.info_bytes]
  · obtain ⟨unread, hunread, hend⟩ := storedPlain_unread file encrypt
    rw [RblHdr.info_bytes] at hws
    have hplain : src.plain P s.flash (toolHdr K .none encrypt pi file).info =
        storedPlain encrypt file := h.plain hinv
    rw [hout] at hcs
    exact ⟨cs, unread, hws, by rw [hcs, hunread, hplain], by rw [hcs]; exact hend⟩

/-- An encrypted file that fits in front of the header. -/
theorem uncompressedRoundTrip_vectorWords :
    UncompressedRoundTrip falPartTable 9 calmEnv appPart downloadPart (.lit qbootAppPartName)
      (.lit qbootDownloadPartName) (toolHdr .stored .none true ⟨[], [], [], 0, 0⟩ vectorWords)
      vectorWords (headerRead Codecs.stored (toolHdr .stored .none true ⟨[], [], [], 0, 0⟩ vectorWords))
      (Board.powerUp (downloaded .stored .none true ⟨[], [], [], 0, 0⟩ vectorWords)) :=
  (uncompressedRoundTrip_iff (fun _ _ => rfl) (fun _ => cipherInverts_stored)
    (packed_downloaded (by decide) (by decide) (by decide)) (by decide)).2
    (Or.inr (Or.inr (by decide)))

/-- A file that reaches up to the header, encrypted: its padding damages the header. -/
theorem fullPartition_uncompressed :
    ¬ UncompressedRoundTrip falPartTable 393121 calmEnv appPart downloadPart (.lit qbootAppPartName)
      (.lit qbootDownloadPartName)
      (toolHdr .stored .none true ⟨[], [], [], 0, 0⟩ (List.replicate 393120 0))
      (List.replicate 393120 0)
      (headerRead Codecs.stored
        (toolHdr .stored .none true ⟨[], [], [], 0, 0⟩ (List.replicate 393120 0)))
      (Board.powerUp (downloaded .stored .none true ⟨[], [], [], 0, 0⟩ (List.replicate 393120 0))) := by
  have hlen : (List.replicate 393120 (0 : UInt8)).length = 393120 := List.length_replicate
  have hbody : (toolBody .stored .none true (List.replicate 393120 0)).length = 393136 := by
    rw [toolBody_aes_length, compressFile, hlen]
  refine not_uncompressedRoundTrip (fun _ _ => rfl) (fun _ => cipherInverts_stored)
    (packed_downloaded (by omega) (by omega) (by omega)) (by omega) ?_
  rw [PaddingFits, padded_length, hlen]
  decide

end RtThreadOta
