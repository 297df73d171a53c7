import RtThreadOta.RoundTrip.Packed

/-!
# Gzip packages

`Inflates` is what the release relies on of zlib: successive calls hand out consecutive pieces of the
decoded stream and stop only when the output is full, the input is used up or the stream has ended.
The arm holds back what does not fill a group of 32 bytes; `held` is that remainder of the first `o`
decoded bytes, so the whole groups before it are exactly what was written.
-/

namespace RtThreadOta

open Interaction Nor Words

variable {L : Layout} {P : Codecs} {K : PackCodecs} {dst src : FalPartition} {ram : Ram P}
  {dstName srcName : PartName} {encrypt : Bool} {pi : PackInfo} {file : List UInt8} {fuel : ℕ}
  {env : Env} {s : Board}

/-- zlib on the compressed stream `comp` of `file`: `At s i o` says that the state `s` is reached
after `i` bytes of the stream went in and `o` bytes of the file came out. -/
structure Inflates (I : Inflater) (comp file : List UInt8) (At : I.State → ℕ → ℕ → Prop) :
    Prop where
  init : At I.init 0 0
  /-- A call on bytes that continue the stream, possibly past its end. -/
  call : ∀ {s i o n} {nextIn junk : List UInt8}, At s i o → 0 < n →
    nextIn <+: comp.drop i ++ junk →
    ∃ s' used k, I.inflate s nextIn n = (s', used, some ((file.drop o).take k)) ∧
      used ≤ nextIn.length ∧ i + used ≤ comp.length ∧ k ≤ n ∧ o + k ≤ file.length ∧
      At s' (i + used) (o + k) ∧
      (k = n ∨ used = nextIn.length ∧ i + used < comp.length ∨
        i + used = comp.length ∧ o + k = file.length)

/-- The bytes of whole groups of 32 among `o`. -/
def whole (o : ℕ) : ℕ := o / gzipRemainBufSize * gzipRemainBufSize

/-- What the arm holds back of the first `o` bytes. -/
def held (file : List UInt8) (o : ℕ) : List UInt8 := (file.drop (whole o)).take (o - whole o)

theorem whole_le (o : ℕ) : whole o ≤ o := Nat.div_mul_le_self _ _

theorem lt_whole (o : ℕ) : o < whole o + 32 := by
  rw [whole, gzipRemainBufSize]
  omega

theorem dvd_whole (o : ℕ) : 32 ∣ whole o := Nat.dvd_mul_left _ _

theorem whole_mono {o o' : ℕ} (h : o ≤ o') : whole o ≤ whole o' :=
  Nat.mul_le_mul_right _ (Nat.div_le_div_right h)

theorem held_length {o : ℕ} (ho : o ≤ file.length) : (held file o).length = o - whole o := by
  have := whole_le o
  rw [held, List.length_take, List.length_drop]
  omega

/-- The held bytes and the next piece: whole groups, and what is held then. -/
theorem held_append (file : List UInt8) (o k : ℕ) :
    held file o ++ (file.drop o).take k = (file.drop (whole o)).take (o + k - whole o) := by
  have hle := whole_le o
  have hdrop : file.drop o = (file.drop (whole o)).drop (o - whole o) := by
    rw [List.drop_drop]
    congr 1
    omega
  have hsum : o + k - whole o = (o - whole o) + k := by omega
  rw [held, hdrop, hsum, List.take_add]

theorem held_split {o k : ℕ} (hk : o + k ≤ file.length) {ds : List UInt8}
    (hds : ds = held file o ++ (file.drop o).take k) :
    ds.length = o + k - whole o ∧
      ds.length - ds.length % gzipRemainBufSize = whole (o + k) - whole o ∧
      ds.take (ds.length - ds.length % gzipRemainBufSize) =
        (file.drop (whole o)).take (whole (o + k) - whole o) ∧
      ds.drop (ds.length - ds.length % gzipRemainBufSize) = held file (o + k) := by
  have hle := whole_le o
  have hmono := whole_mono (Nat.le_add_right o k)
  have hle' := whole_le (o + k)
  have hlen : ds.length = o + k - whole o := by
    rw [hds, held_append, List.length_take, List.length_drop]
    omega
  have hn : ds.length - ds.length % gzipRemainBufSize = whole (o + k) - whole o := by
    rw [hlen, whole, whole, gzipRemainBufSize]
    omega
  refine ⟨hlen, hn, ?_, ?_⟩
  · rw [hn, hds, held_append, List.take_take, Nat.min_eq_left (by omega)]
  · rw [hn, hds, held_append, List.drop_take, List.drop_drop, held]
    congr 1
    · omega
    · congr 1
      omega

theorem Reply.consSome_flatten {A : Type} (chunk : List UInt8) (r : Reply A) :
    (r.consSome chunk).chunks.flatten = chunk ++ r.chunks.flatten := by
  rw [consSome]
  split
  · exact List.flatten_cons
  · have hnil : chunk = [] := List.eq_nil_of_length_eq_zero (by omega)
    rw [hnil, List.nil_append]

section Rounds

variable {I : Inflater} {comp : List UInt8} {At : I.State → ℕ → ℕ → Prop}

/-- The rounds on one piece: all of it is taken in, or the stream ends, and the whole groups of what
came out are handed over. -/
theorem inflateRounds_spec (hI : Inflates I comp file At) (pieceLen : ℕ) {s : I.State} {i o : ℕ}
    {nextIn junk : List UInt8} (hAt : At s i o) (ho : o ≤ file.length)
    (hnext : nextIn <+: comp.drop i ++ junk) (hfuel : file.length - o < fuel) :
    ∃ s' i' o', At s' i' o' ∧ o ≤ o' ∧ o' ≤ file.length ∧
      (i' = i + nextIn.length ∧ i' < comp.length ∨ i' = comp.length ∧ o' = file.length) ∧
      (inflateRounds I pieceLen fuel s nextIn (held file o)).next = .more (s', held file o') ∧
      (inflateRounds I pieceLen fuel s nextIn (held file o)).tail =
        (if pieceLen < qbootCmprsReadSize then held file o' else []) ∧
      (inflateRounds I pieceLen fuel s nextIn (held file o)).chunks.flatten =
        (file.drop (whole o)).take (whole o' - whole o) := by
  induction fuel generalizing s i o nextIn with
  | zero => omega
  | succ fuel ih =>
    have hheld := held_length ho
    have hlt := lt_whole o
    have h4096 : qbootBufSize = 4096 := rfl
    have hroom : 0 < qbootBufSize - (held file o).length := by omega
    obtain ⟨s', used, k, hinf, hused, hin, hkn, hk, hAt', hstop⟩ := hI.call hAt hroom hnext
    have hout : ((file.drop o).take k).length = k := by
      rw [List.length_take, List.length_drop]
      omega
    obtain ⟨hlen, -, htake, hdrop⟩ := held_split hk rfl
    rw [inflateRounds, hinf]
    dsimp only
    rw [htake, hdrop, hout, Reply.consSome_next, Reply.consSome_tail, Reply.consSome_flatten]
    by_cases hfull : k < qbootBufSize - (held file o).length
    · -- the call stopped before the output was full
      rw [if_pos hfull]
      refine ⟨s', i + used, o + k, hAt', Nat.le_add_right _ _, hk, ?_, rfl, rfl, List.append_nil _⟩
      rcases hstop with hstop | ⟨rfl, hstop⟩ | hstop
      · omega
      · exact Or.inl ⟨rfl, hstop⟩
      · exact Or.inr hstop
    · rw [if_neg hfull]
      have hrest : nextIn.drop used <+: comp.drop (i + used) ++ junk := by
        obtain ⟨t, ht⟩ := hnext
        refine ⟨t, ?_⟩
        rw [← List.drop_append_of_le_length hused, ht,
          List.drop_append_of_le_length (by rw [List.length_drop]; omega), List.drop_drop]
      obtain ⟨s'', i'', o'', h₁, h₂, h₃, h₄, h₅, h₆, h₇⟩ := ih hAt' hk hrest (by omega)
      refine ⟨s'', i'', o'', h₁, by omega, h₃, ?_, h₅, h₆, ?_⟩
      · rw [List.length_drop] at h₄
        omega
      · have hmono := whole_mono (Nat.le_add_right o k)
        have hmono' := whole_mono h₂
        have hsplit : whole o'' - whole o =
            (whole (o + k) - whole o) + (whole o'' - whole (o + k)) := by omega
        have hdrop' : file.drop (whole (o + k)) =
            (file.drop (whole o)).drop (whole (o + k) - whole o) := by
          rw [List.drop_drop]
          congr 1
          omega
        rw [h₇, hsplit, List.take_add, hdrop']

/-- What comes out from the whole groups of the first `o` bytes on: the rest of the file, filled up
with `0xFF` to a multiple of 32. -/
def gzipOut (file : List UInt8) (o : ℕ) : List UInt8 :=
  file.drop (whole o) ++
    List.replicate (roundUp file.length gzipRemainBufSize - file.length) 0xFF

/-- Either nothing is held back at the end, or the file ends within the last group. -/
theorem held_end (file : List UInt8) :
    held file file.length = [] ∧ whole file.length = file.length ∧
        roundUp file.length gzipRemainBufSize = file.length ∨
      held file file.length ≠ [] ∧
        roundUp file.length gzipRemainBufSize = whole file.length + gzipRemainBufSize := by
  have hlen := held_length (Nat.le_refl file.length)
  have hle := whole_le file.length
  have hround : ∀ n, roundUp n gzipRemainBufSize = (n + 31) / 32 * 32 := fun _ => rfl
  have hwhole : ∀ n, whole n = n / 32 * 32 := fun _ => rfl
  have h32 : gzipRemainBufSize = 32 := rfl
  rw [hround, h32]
  by_cases hnil : held file file.length = []
  · rw [hnil, List.length_nil] at hlen
    refine Or.inl ⟨hnil, by omega, ?_⟩
    rw [hwhole] at hlen hle
    omega
  · have hpos : 0 < (held file file.length).length := List.length_pos_iff.2 hnil
    refine Or.inr ⟨hnil, ?_⟩
    rw [hwhole] at hlen ⊢
    omega

/-- The groups completed in between come first. -/
theorem gzipOut_eq {o o' : ℕ} (h : o ≤ o') :
    gzipOut file o = (file.drop (whole o)).take (whole o' - whole o) ++ gzipOut file o' := by
  have hmono := whole_mono h
  have hdrop : file.drop (whole o') = (file.drop (whole o)).drop (whole o' - whole o) := by
    rw [List.drop_drop]
    congr 1
    omega
  rw [gzipOut, gzipOut, hdrop, ← List.append_assoc, List.take_append_drop]

/-- The last bytes are those held back and their padding, if there are any. -/
theorem gzipOut_end (file : List UInt8) :
    gzipOut file file.length =
      if held file file.length = [] then []
      else destPolicy.flush 0 (held file file.length) := by
  have hlen := held_length (Nat.le_refl file.length)
  have hle := whole_le file.length
  have hheld : held file file.length = file.drop (whole file.length) := by
    exact List.take_of_length_le (Nat.le_of_eq List.length_drop)
  rcases held_end file with ⟨hnil, hwhole, hround⟩ | ⟨hne, hround⟩
  · rw [if_pos hnil, gzipOut, ← hheld, hnil, hround, Nat.sub_self]
    rfl
  · have hpad : roundUp file.length gzipRemainBufSize - file.length =
        gzipRemainBufSize - (held file file.length).length := by
      rw [hround, hlen]
      omega
    rw [if_neg hne, gzipOut, hpad, ← hheld]
    rfl

/-- The driven gzip decoder puts out the file and its padding. -/
theorem gzipDecoder_drive (hI : Inflates I comp file At) {armFuel pos avail i o : ℕ} {st : I.State}
    {a : (gzipDecoder I armFuel).State} {rest junk : List UInt8} (harm : file.length < armFuel)
    (ha : a = (st, held file o)) (hAt : At st i o) (ho : o ≤ file.length)
    (hi : i ≤ comp.length) (hrest : rest = comp.drop i ++ junk) (hpos : pos = whole o)
    (havail : rest.length ≤ avail) (hlt : file.length + 32 < 4294967296)
    (hfuel : rest.length + 2 ≤ fuel) {T : Trace}
    (hT : T = (gzipDecoder I armFuel).drive destPolicy file.length fuel a pos avail rest) :
    T.fin = .reached ∧ T.out = gzipOut file o ∧ (∀ bs ∈ T.puts, bs ≠ []) ∧
      ∀ p ∈ T.flushes, p + gzipRemainBufSize = roundUp file.length gzipRemainBufSize := by
  subst hpos
  have h32 : gzipRemainBufSize = 32 := rfl
  have h1024 : qbootCmprsReadSize = 1024 := rfl
  induction fuel generalizing i o st a rest avail junk T with
  | zero => omega
  | succ fuel ih =>
    have hle := whole_le o
    by_cases hend : whole o < file.length
    swap
    · rw [Decoder.drive_reached (by omega)] at hT
      have hfull : o = file.length := by omega
      have hout := gzipOut_end file
      rcases held_end file with ⟨hnil, -, -⟩ | ⟨hne, hround⟩
      · rw [if_pos hnil] at hout
        rw [hT, hfull, hout]
        exact ⟨rfl, rfl, fun _ h => (List.not_mem_nil h).elim, fun _ h => (List.not_mem_nil h).elim⟩
      · have hlen := held_length (Nat.le_refl file.length)
        have hpos : 0 < (held file file.length).length := List.length_pos_iff.2 hne
        rw [hfull] at hend
        omega
    have htake : (rest.take qbootCmprsReadSize).length = min qbootCmprsReadSize rest.length :=
      List.length_take
    rw [Decoder.drive_piece hend (by omega)] at hT
    have hpre : rest.take qbootCmprsReadSize <+: comp.drop i ++ junk :=
      hrest ▸ List.take_prefix _ _
    obtain ⟨s', i', o', hAt', hoo', ho', hstop, hnext, htail, hchunks⟩ :=
      inflateRounds_spec hI (rest.take qbootCmprsReadSize).length hAt ho hpre
        (by omega : file.length - o < armFuel)
    have hmono := whole_mono hoo'
    have hle' := whole_le o'
    have hlt' := lt_whole o'
    -- the reply of the decoder is that of the rounds
    have hfeed : (gzipDecoder I armFuel).feed a (rest.take qbootCmprsReadSize) =
        inflateRounds I (rest.take qbootCmprsReadSize).length armFuel st
          (rest.take qbootCmprsReadSize) (held file o) := by
      rw [ha]
      rfl
    have hchunk := (inflateRounds_chunks I (rest.take qbootCmprsReadSize).length armFuel st
      (rest.take qbootCmprsReadSize) (held file o)).2
    have hnext' : ∃ a' : (gzipDecoder I armFuel).State, a' = (s', held file o') ∧
        ((gzipDecoder I armFuel).feed a (rest.take qbootCmprsReadSize)).next = .more a' := by
      rw [hfeed]
      exact ⟨_, rfl, hnext⟩
    obtain ⟨a', ha', hnext'⟩ := hnext'
    rw [← hfeed] at htail hchunks hchunk
    rw [hnext'] at hT
    generalize (gzipDecoder I armFuel).feed a (rest.take qbootCmprsReadSize) = r at *
    have hputs : ∀ bs ∈ r.chunks.map (destPolicy.put (file.length - whole o)), bs ≠ [] := by
      intro bs hbs
      obtain ⟨c, hc, rfl⟩ := List.mem_map.1 hbs
      exact List.length_pos_iff.1 (hchunk c hc).2.1
    have hbytes : destPolicy.chunkBytes (file.length - whole o) r =
        (file.drop (whole o)).take (whole o' - whole o) := by
      rw [← hchunks]
      exact List.flatMap_id
    have hbytesLen : (destPolicy.chunkBytes (file.length - whole o) r).length =
        whole o' - whole o := by
      rw [hbytes, List.length_take, List.length_drop]
      omega
    dsimp only at hT
    subst hT
    rcases Nat.lt_or_ge rest.length qbootCmprsReadSize with hshort | hlong
    · -- the last piece: the stream has ended in it
      rw [htake, Nat.min_eq_right (Nat.le_of_lt hshort)] at hstop
      rw [if_pos (by omega)] at htail
      have hlen : rest.length = comp.length - i + junk.length := by
        rw [hrest, List.length_append, List.length_drop]
      have ho'' : o' = file.length := by omega
      subst ho''
      obtain ⟨fuel, rfl⟩ : ∃ k, fuel = k + 1 := ⟨fuel - 1, by omega⟩
      have htailBytes : destPolicy.tailBytes (file.length - whole o) r = gzipOut file file.length := by
        rw [Policy.tailBytes, htail, gzipOut_end]
        rfl
      have hout : destPolicy.chunkBytes (file.length - whole o) r ++
          destPolicy.tailBytes (file.length - whole o) r = gzipOut file o := by
        rw [hbytes, htailBytes, ← gzipOut_eq hoo']
      have houtLen : whole o + (gzipOut file o).length = roundUp file.length gzipRemainBufSize := by
        have hround := le_roundUp file.length (k := gzipRemainBufSize) (Nat.succ_pos _)
        rw [gzipOut, List.length_append, List.length_drop, List.length_replicate]
        omega
      have hroundLe : file.length ≤ roundUp file.length gzipRemainBufSize :=
        le_roundUp _ (Nat.succ_pos _)
      have hroundLt := roundUp_lt file.length (k := gzipRemainBufSize) (Nat.succ_pos _)
      rw [hout, houtLen, u32_of_lt (by omega), Decoder.drive_reached hroundLe]
      refine ⟨rfl, ?_, ?_, ?_⟩
      · rw [Trace.after_out, hout, List.append_nil]
      · rw [Trace.after_puts, List.append_nil]
        exact hputs
      · rw [Trace.after_flushes, hbytesLen, htail]
        rcases held_end file with ⟨hnil, -, -⟩ | ⟨hne, hround⟩
        · rw [if_pos hnil]
          exact fun _ h => (List.not_mem_nil h).elim
        · rw [if_neg hne]
          intro p hp
          obtain rfl := List.mem_singleton.1 hp
          omega
    · -- a whole piece: nothing is flushed
      rw [htake, Nat.min_eq_left hlong] at hstop
      rw [if_neg (by omega)] at htail
      have htailBytes : destPolicy.tailBytes (file.length - whole o) r = [] := by
        rw [Policy.tailBytes, if_pos htail]
      rw [htailBytes, List.append_nil, hbytesLen, u32_of_lt (by omega)]
      have hpos' : whole o + (whole o' - whole o) = whole o' := by omega
      rw [hpos']
      have hrest' : ∃ junk', rest.drop qbootCmprsReadSize = comp.drop i' ++ junk' := by
        rcases hstop with ⟨rfl, hin⟩ | ⟨rfl, -⟩
        · refine ⟨junk, ?_⟩
          rw [hrest, List.drop_append_of_le_length (by rw [List.length_drop]; omega),
            List.drop_drop]
        · exact ⟨rest.drop qbootCmprsReadSize, by rw [List.drop_length, List.nil_append]⟩
      obtain ⟨junk', hrest'⟩ := hrest'
      have hdropLen : (rest.drop qbootCmprsReadSize).length = rest.length - qbootCmprsReadSize :=
        List.length_drop
      generalize hT : (gzipDecoder I armFuel).drive _ _ _ _ _ _ _ = T
      obtain ⟨hfin, hout, hputs', hflushes⟩ := ih ha' hAt' ho' (by omega) hrest' (by omega)
        (by omega) hT.symm
      refine ⟨hfin, ?_, ?_, ?_⟩
      · rw [Trace.after_out, htailBytes, List.append_nil, hbytes, hout, ← gzipOut_eq hoo']
      · intro bs hbs
        rw [Trace.after_puts] at hbs
        exact (List.mem_append.1 hbs).elim (hputs bs) (hputs' bs)
      · rw [Trace.after_flushes, if_pos htail]
        exact hflushes

end Rounds

/-- The release of a gzip package: it succeeds, its programs in front of the header's are whole
groups of 32 bytes in a row, and the target holds the file and `0xFF` up to the next group. -/
def GzipRoundTrip (L : Layout) (fuel : ℕ) (env : Env) (dst : FalPartition)
    (dstName srcName : PartName) (hdr : RblHdr) (file : List UInt8) (ram : Ram P) (s : Board) :
    Prop :=
  ∃ ram' s', (qbtFwRelease L fuel dstName srcName ram).run (world L env) s = .done (ram', true) s' ∧
    dst.bytes s'.flash 0 (roundUp file.length gzipRemainBufSize) =
      file ++ List.replicate (roundUp file.length gzipRemainBufSize - file.length) 0xFF ∧
    dst.bytes s'.flash dst.tail fwInfoSize = hdr.bytes ∧
    ∃ pieces, dst.programs s'.log =
        dst.programs s.log ++ inRow 0 pieces ++ [(dst.tail, hdr.bytes)] ∧
      ∀ w ∈ inRow 0 pieces, 32 ∣ w.1 ∧ 32 ∣ w.2.length

/-- The tail of a target starts at a multiple of 32. -/
theorem dvd_tail (hdst : dst ∈ L.parts) : 32 ∣ dst.tail := by
  have htail := Layout.tail_add hdst
  have h96 : fwInfoSize = 96 := rfl
  have hlen : 32 ∣ dst.len :=
    Nat.dvd_trans (Nat.dvd_trans ⟨128, rfl⟩ (L.chip.blkSize_dvd dst.dev)) (L.sound dst hdst).len_aligned
  omega

/-- Every gzip package is released. -/
theorem gzipRoundTrip (hcalm : Calm env) (hinv : encrypt = true → CipherInverts P K)
    (h : Packed L dst src dstName srcName K .gzip encrypt pi file ram s.flash)
    {At : P.inflater.State → ℕ → ℕ → Prop} (hI : Inflates P.inflater (K.gzip file) file At)
    (hfuel : (toolBody K .gzip encrypt file).length + file.length + 2 ≤ fuel) :
    GzipRoundTrip L fuel env dst dstName srcName (toolHdr K .gzip encrypt pi file) file ram s := by
  have hdst := h.dst_mem
  have htail := Layout.tail_add hdst
  have hlen := L.len_lt hdst
  have hraw := h.rawSize
  have hpos := h.file_pos
  have hfits := h.file_fits
  have hbody := h.fits
  have h32 : gzipRemainBufSize = 32 := rfl
  have hd : decoderOf P fuel (toolHdr K .gzip encrypt pi file).info.cmprsType =
      some (gzipDecoder P.inflater fuel) := by
    rw [toolHdr_cmprsType]
    rfl
  -- the plaintext is the stream, followed by the padding of an encrypted one
  obtain ⟨junk, hjunk, hplainLen⟩ : ∃ junk, src.plain P s.flash
      (toolHdr K .gzip encrypt pi file).info = (K.gzip file).drop 0 ++ junk ∧
      (src.plain P s.flash (toolHdr K .gzip encrypt pi file).info).length =
        (toolBody K .gzip encrypt file).length := by
    rw [h.plain hinv]
    cases encrypt with
    | false => exact ⟨[], (List.append_nil _).symm, rfl⟩
    | true =>
      refine ⟨_, rfl, ?_⟩
      rw [if_pos rfl, padded_length, toolBody_aes_length]
  have hheld : held file 0 = [] := by
    rw [held, Nat.zero_sub, List.take_zero]
  have hinit : (gzipDecoder P.inflater fuel).init = (P.inflater.init, held file 0) := by
    rw [hheld]
    rfl
  generalize hT : (gzipDecoder P.inflater fuel).drive destPolicy
    (toolHdr K .gzip encrypt pi file).info.rawSize fuel (gzipDecoder P.inflater fuel).init 0
    (src.len - fwInfoSize) (src.plain P s.flash (toolHdr K .gzip encrypt pi file).info) = T
  have hdrive := hT.symm
  rw [hraw] at hdrive
  obtain ⟨hfin, hout, hputs, hflushes⟩ := gzipDecoder_drive hI (by omega) hinit hI.init
    (Nat.zero_le _) (Nat.zero_le _) hjunk (by rfl : 0 = whole 0) (by omega) (by omega) (by omega)
    hdrive
  have hout' : gzipOut file 0 = file ++
      List.replicate (roundUp file.length gzipRemainBufSize - file.length) 0xFF := rfl
  have hround : roundUp file.length gzipRemainBufSize ≤ dst.tail :=
    roundUp_le_of_dvd (Nat.succ_pos _) hfits (dvd_tail hdst)
  have hroundLe := le_roundUp file.length (k := gzipRemainBufSize) (Nat.succ_pos _)
  have hroundStop : roundUp file.length gzipRemainBufSize ≤ eraseStop L dst file.length :=
    roundUp_le_of_dvd (Nat.succ_pos _) (le_eraseStop L dst _)
      (Nat.dvd_trans ⟨128, rfl⟩ (dvd_eraseStop L dst _))
  have houtLen : (gzipOut file 0).length = roundUp file.length gzipRemainBufSize := by
    rw [hout', List.length_append, List.length_replicate]
    omega
  have hrel : (qbtFwRelease L fuel dstName srcName ram).wp (world L env)
      (fun r s' => r.2 = true ∧ Released L dst (toolHdr K .gzip encrypt pi file).info s.flash
        (gzipOut file 0) s'.flash) (fun _ _ => False) s := by
    refine wp_qbtFwRelease_clean hcalm h.releasable (by omega) hd hT.symm hfin hputs ?_ ?_
      fun ram' s' _ hr => ⟨rfl, ?_⟩
    · rw [hout, houtLen]
      exact hround
    · rw [hout, houtLen, hraw]
      exact hroundStop
    · rwa [hout] at hr
  have hprog := wp_qbtFwRelease_programs h.releasable (hcalm.readsQuiet src) hd hT.symm
    fun p hp => by
      rw [hflushes p hp]
      omega
  obtain ⟨⟨ram', ok⟩, s', hrun, rfl, hrel⟩ := Prog.run_done_of_wp hrel
  rw [Prog.wp_iff_run, hrun] at hprog
  obtain ⟨pieces, -, hunit, hpieces⟩ := hprog rfl
  refine ⟨ram', s', hrun, ?_, ?_, pieces, ?_, ?_⟩
  · rw [hrel.bytes hdst (Nat.le_of_eq houtLen.symm) hround (by rw [hraw]; exact hroundStop)]
    exact (List.take_of_length_le (Nat.le_of_eq houtLen)).trans hout'
  · rw [hrel.tail_eq hdst (by omega), RblHdr.info_bytes]
  · rwa [RblHdr.info_bytes] at hpieces
  · rw [toolHdr_cmprsType] at hunit
    exact inRow_start hunit (Nat.dvd_zero _)

/-! ## A gzip stream -/

/-- A gzip stream with the file in one stored block. -/
def storedGzip (file : List UInt8) : List UInt8 :=
  [0x1F, 0x8B, 8, 0, 0, 0, 0, 0, 0, 0xFF] ++ [1] ++ encodeLe16 file.length ++
    encodeLe16 (65535 - file.length) ++ file ++ encodeLe32 (crc32Cal file).toNat ++
    encodeLe32 file.length

/-- The inflater that has decoded one stream as soon as all of it is in. -/
def bufferingInflater (comp file : List UInt8) : Inflater where
  State := ℕ × ℕ
  init := (0, 0)
  inflate st nextIn n :=
    let used := min nextIn.length (comp.length - st.1)
    let k := if comp.length ≤ st.1 + used then min n (file.length - st.2) else 0
    ((st.1 + used, st.2 + k), used, some ((file.drop st.2).take k))
  output_le st nextIn n out hout := by
    obtain rfl := Option.some.inj hout
    rw [List.length_take]
    split <;> omega

theorem inflates_buffering (comp file : List UInt8) : Inflates (bufferingInflater comp file) comp file
    fun st i o => st = (i, o) ∧ i ≤ comp.length ∧ o ≤ file.length where
  init := ⟨rfl, Nat.zero_le _, Nat.zero_le _⟩
  call {st i o n nextIn junk} h hn _ := by
    obtain ⟨rfl, hi, ho⟩ := h
    refine ⟨_, _, if comp.length ≤ i + min nextIn.length (comp.length - i) then
      min n (file.length - o) else 0, rfl, Nat.min_le_left _ _, by omega, ?_, ?_, ⟨rfl, by omega, ?_⟩, ?_⟩
    all_goals split <;> omega

/-- The packages of a tool and a bootloader that know one gzip stream. -/
def Codecs.oneStream (file : List UInt8) : Codecs :=
  { Codecs.stored with inflater := bufferingInflater (storedGzip file) file }

/-- The tool with stored gzip blocks. -/
def PackCodecs.storedBlock : PackCodecs := { PackCodecs.stored with gzip := storedGzip }

/-- An encrypted gzip package for the app partition. -/
theorem gzipRoundTrip_vectorWords :
    GzipRoundTrip falPartTable 100 calmEnv appPart (.lit qbootAppPartName)
      (.lit qbootDownloadPartName) (toolHdr .storedBlock .gzip true ⟨[], [], [], 0, 0⟩ vectorWords)
      vectorWords
      (headerRead (Codecs.oneStream vectorWords) (toolHdr .storedBlock .gzip true ⟨[], [], [], 0, 0⟩ vectorWords))
      (Board.powerUp (downloaded .storedBlock .gzip true ⟨[], [], [], 0, 0⟩ vectorWords)) :=
  gzipRoundTrip (fun _ _ => rfl) (fun _ => cipherInverts_stored)
    (packed_downloaded (by decide) (by decide) (by decide))
    (inflates_buffering (storedGzip vectorWords) vectorWords) (by decide)

end RtThreadOta
