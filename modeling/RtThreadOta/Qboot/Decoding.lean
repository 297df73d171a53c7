import RtThreadOta.Qboot.Decoder

/-!
# Decoding a whole package

What a package decodes to, piece by piece and without regard to `raw_size`, and how the loops, which
count decoded bytes, get through it. Once it is used up they go on with reads of zero bytes: a decoder
makes nothing of these, or, when zlib has left a remainder, the same padded remainder every time.
-/

namespace RtThreadOta

open Interaction Words

variable {P : Codecs}

/-- All bytes of a reply. -/
def Reply.bytes {A : Type} (r : Reply A) : List UInt8 := r.chunks.flatten ++ r.tail

/-- What a decoder makes of so many pieces, and how it goes on. Nothing is known of the bytes of a
piece on which it stops. -/
def Decoder.decode (d : Decoder) : (pieces : ℕ) → d.State → List UInt8 → List UInt8 × Next d.State
  | 0, a, _ => ([], .more a)
  | pieces + 1, a, rest =>
    let r := d.feed a (rest.take qbootCmprsReadSize)
    match r.next with
    | .more a' =>
      let t := d.decode pieces a' (rest.drop qbootCmprsReadSize)
      (r.bytes ++ t.1, t.2)
    | .bad => (r.bytes, .bad)
    | .stop h => ([], .stop h)

/-- What a decoder makes of a package: the bytes it decodes to, and how decoding it ends. A package has
its whole pieces and a last one that is short, and may be empty. -/
def Decoder.decodeAll (d : Decoder) (plain : List UInt8) : List UInt8 × Next d.State :=
  d.decode (plain.length / qbootCmprsReadSize + 1) d.init plain

/-- What the loops rely on of a decoder. Between pieces its state is `Good`; when the last, short piece
is through it is `Dry`, and makes nothing of nothing but the flush `tail`. -/
structure Decoder.Tame (d : Decoder) (Good : d.State → Prop) (Dry : List UInt8 → d.State → Prop) :
    Prop where
  init : Good d.init
  good : ∀ {a a'} {piece : List UInt8}, Good a → piece.length ≤ qbootCmprsReadSize →
    (d.feed a piece).next = .more a' → Good a'
  halts : ∀ {a} {piece : List UInt8}, Good a → piece.length ≤ qbootCmprsReadSize →
    (d.feed a piece).next ≠ .stop .diverged
  size : ∀ {a} {piece : List UInt8}, Good a → piece.length ≤ qbootCmprsReadSize →
    (d.feed a piece).chunks.flatten.length ≤ 67108864
  tail_lt : ∀ {a} {piece : List UInt8}, Good a → (d.feed a piece).tail.length < gzipRemainBufSize
  flush : ∀ {a} {piece : List UInt8}, Good a → piece.length ≤ qbootCmprsReadSize →
    (d.feed a piece).tail ≠ [] →
    piece.length < qbootCmprsReadSize ∧ ∃ a', (d.feed a piece).next = .more a'
  dry : ∀ {a a'} {piece : List UInt8}, Good a → piece.length < qbootCmprsReadSize →
    (d.feed a piece).next = .more a' → Dry (d.feed a piece).tail a'
  idle : ∀ {a tail}, Dry tail a → (d.feed a []).chunks.flatten = [] ∧ (d.feed a []).tail = tail ∧
    tail.length < gzipRemainBufSize ∧ ∃ a', (d.feed a []).next = .more a' ∧ Dry tail a'

theorem noneDecoder_tame : noneDecoder.Tame (fun _ => True) fun tail _ => tail = [] where
  init := trivial
  good _ _ _ := trivial
  halts _ _ h := by cases h
  size {a piece} _ hpiece := by
    have h1024 : qbootCmprsReadSize = 1024 := rfl
    show [piece].flatten.length ≤ _
    rw [List.flatten_singleton]
    omega
  tail_lt _ := Nat.succ_pos _
  flush _ _ h := absurd rfl h
  dry _ _ _ := rfl
  idle {a tail} h := ⟨rfl, h.symm, h ▸ Nat.succ_pos _, (), rfl, h⟩

theorem noneDecoder_decode (pieces : ℕ) (rest : List UInt8) :
    noneDecoder.decode pieces () rest = (rest.take (pieces * qbootCmprsReadSize), .more ()) := by
  induction pieces generalizing rest with
  | zero =>
    rw [Nat.zero_mul, List.take_zero]
    rfl
  | succ pieces ih =>
    have hstep : noneDecoder.decode (pieces + 1) () rest =
        (([rest.take qbootCmprsReadSize].flatten ++ []) ++
          (noneDecoder.decode pieces () (rest.drop qbootCmprsReadSize)).1,
          (noneDecoder.decode pieces () (rest.drop qbootCmprsReadSize)).2) := rfl
    rw [hstep, ih, Nat.succ_mul, Nat.add_comm (pieces * _), List.take_add, List.append_nil,
      List.flatten_singleton]

/-- A package that is not compressed decodes to itself. -/
theorem noneDecoder_decodeAll (plain : List UInt8) :
    noneDecoder.decodeAll plain = (plain, .more ()) := by
  have h1024 : qbootCmprsReadSize = 1024 := rfl
  rw [Decoder.decodeAll]
  refine (noneDecoder_decode _ plain).trans ?_
  rw [List.take_of_length_le (by rw [h1024]; omega)]

/-- Taking blocks off the bytes ends before the bytes do, leaves bytes that no block can be taken off,
and decodes at most 4096 bytes a block. -/
theorem drain_ends (decompress : List UInt8 → List UInt8) (left : ℕ) (bs : List UInt8)
    (h : bs.length < left) :
    (drain decompress left bs).next ≠ .stop .diverged ∧
      (drain decompress left bs).chunks.flatten.length ≤ qbootBufSize * bs.length ∧
      ∀ rest, (drain decompress left bs).next = .more rest → rest.length ≤ bs.length ∧
        ∀ left', drain decompress (left' + 1) rest = ⟨[], [], .more rest⟩ := by
  induction left generalizing bs with
  | zero => exact absurd h (Nat.not_lt_zero _)
  | succ left ih =>
    -- the ends of the loop: what is left is no whole block, whenever it is looked at
    have hend : ∀ (hsame : ∀ left', drain decompress (left' + 1) bs = ⟨[], [], .more bs⟩),
        (drain decompress (left + 1) bs).next ≠ .stop .diverged ∧
        (drain decompress (left + 1) bs).chunks.flatten.length ≤ qbootBufSize * bs.length ∧
        ∀ rest, (drain decompress (left + 1) bs).next = .more rest → rest.length ≤ bs.length ∧
          ∀ left', drain decompress (left' + 1) rest = ⟨[], [], .more rest⟩ := by
      intro hsame
      rw [hsame left]
      refine ⟨by simp, Nat.zero_le _, fun rest hrest => ?_⟩
      obtain rfl : bs = rest := by simpa using hrest
      exact ⟨Nat.le_refl _, hsame⟩
    by_cases hhdr : bs.length < blockHdrSize
    · exact hend fun left' => by rw [drain, if_pos hhdr]
    by_cases hneg : toInt32 (be32 bs 0) ≤ 0
    · exact hend fun left' => by rw [drain, if_neg hhdr]; exact if_pos hneg
    by_cases hover : intMax < toInt32 (be32 bs 0) + blockHdrSize
    · rw [drain, if_neg hhdr]
      simp only
      rw [if_neg hneg, if_pos hover]
      exact ⟨by simp, Nat.zero_le _, fun rest hrest => by simp at hrest⟩
    by_cases hpart : (bs.length : ℤ) < toInt32 (be32 bs 0) + blockHdrSize
    · refine hend fun left' => ?_
      rw [drain, if_neg hhdr]
      simp only
      rw [if_neg hneg, if_neg hover, if_pos hpart]
    rw [drain, if_neg hhdr]
    simp only
    rw [if_neg hneg, if_neg hover, if_neg hpart]
    split_ifs with hbig hzero
    · exact ⟨by simp, Nat.zero_le _, fun rest hrest => by simp at hrest⟩
    · exact ⟨by simp, Nat.zero_le _, fun rest hrest => by simp at hrest⟩
    -- a block takes its header with it
    have h4 : blockHdrSize = 4 := rfl
    have h4096 : qbootBufSize = 4096 := rfl
    obtain ⟨hne, hsize, hmore⟩ := ih (bs.drop ((toInt32 (be32 bs 0)).toNat + blockHdrSize))
      (by rw [List.length_drop]; omega)
    rw [List.length_drop] at hsize hmore
    refine ⟨hne, ?_, fun rest hrest => ?_⟩
    · rw [h4096] at hsize hbig ⊢
      rw [Reply.cons, List.flatten_cons, List.length_append]
      omega
    · obtain ⟨hle, hsame⟩ := hmore rest hrest
      exact ⟨by omega, hsame⟩

/-- Bytes that no block can be taken off stay as they are. -/
theorem framedDecoder_idle {decompress : List UInt8 → List UInt8} {rest : List UInt8}
    (hfit : rest.length ≤ qbootCmprsBufSize)
    (hsame : ∀ left, drain decompress (left + 1) rest = ⟨[], [], .more rest⟩) :
    (framedDecoder decompress).feed rest [] = ⟨[], [], .more rest⟩ := by
  have hfeed := @framedDecoder_feed decompress rest [] hfit
  rw [List.append_nil, hsame] at hfeed
  exact hfeed

/-- A piece that fits is drained whole; one that does not stops the decoder. -/
theorem framedDecoder_ends (decompress : List UInt8 → List UInt8) (residue piece : List UInt8) :
    ((framedDecoder decompress).feed residue piece).next ≠ .stop .diverged ∧
      ((framedDecoder decompress).feed residue piece).tail = [] ∧
      ((framedDecoder decompress).feed residue piece).chunks.flatten.length ≤ 67108864 ∧
      ∀ a', ((framedDecoder decompress).feed residue piece).next = .more a' →
        (framedDecoder decompress).feed a' [] = ⟨[], [], .more a'⟩ := by
  rcases Nat.lt_or_ge qbootCmprsBufSize (residue.length + piece.length) with hover | hfit
  · rw [framedDecoder_overrun hover]
    exact ⟨by simp, rfl, Nat.zero_le _, fun a' h => by cases h⟩
  · have h5120 : qbootCmprsBufSize = 5120 := rfl
    have h4096 : qbootBufSize = 4096 := rfl
    obtain ⟨hne, hsize, hmore⟩ := drain_ends decompress (residue.length + piece.length + 1)
      (residue ++ piece) (by rw [List.length_append]; omega)
    rw [List.length_append] at hsize hmore
    rw [framedDecoder_feed hfit]
    refine ⟨hne, (drain_chunks _ _).1, by rw [h4096] at hsize; omega, fun a' hnext => ?_⟩
    obtain ⟨hle, hsame⟩ := hmore a' hnext
    exact framedDecoder_idle (Nat.le_trans hle hfit) hsame

theorem framedDecoder_tame (decompress : List UInt8 → List UInt8) :
    (framedDecoder decompress).Tame (fun _ => True) fun tail a =>
      tail = [] ∧ (framedDecoder decompress).feed a [] = ⟨[], [], .more a⟩ where
  init := trivial
  good _ _ _ := trivial
  halts {a piece} _ _ := (framedDecoder_ends decompress a piece).1
  size {a piece} _ _ := (framedDecoder_ends decompress a piece).2.2.1
  tail_lt {a piece} _ := by
    rw [(framedDecoder_ends decompress a piece).2.1]
    exact Nat.succ_pos _
  flush {a piece} _ _ h := absurd (framedDecoder_ends decompress a piece).2.1 h
  dry {a a' piece} _ _ h :=
    ⟨(framedDecoder_ends decompress a piece).2.1, (framedDecoder_ends decompress a piece).2.2.2 a' h⟩
  idle {a tail} h := by
    obtain ⟨rfl, hfeed⟩ := h
    rw [hfeed]
    exact ⟨rfl, rfl, Nat.succ_pos _, a, rfl, rfl, hfeed⟩

/-! ## zlib -/

/-- What is relied on of zlib: it stops short of filling the output only when it waits for input, from
which then nothing comes without any, and the input gives only so many bytes, 1032 for each of its own
and of the eight that zlib may hold. -/
structure Inflater.Streams (I : Inflater) where
  waits : I.State → Prop
  /-- the bytes that are still to come from the input at hand -/
  left : I.State → List UInt8 → ℕ
  init : waits I.init
  left_le : ∀ s nextIn, waits s → left s nextIn ≤ 1032 * (nextIn.length + 8)
  step : ∀ s nextIn n s' used out, I.inflate s nextIn n = (s', used, some out) →
    out.length + left s' (nextIn.drop used) ≤ left s nextIn
  short : ∀ s nextIn n s' used out, I.inflate s nextIn n = (s', used, some out) →
    out.length < n → waits s'
  dry : ∀ s n, waits s → ∃ s' used, I.inflate s [] n = (s', used, some []) ∧ waits s'

/-- The rounds of the gzip arm on a piece: they end, and what they decode is what was held back and what
the input gives. -/
theorem inflateRounds_ends {I : Inflater} (hI : I.Streams) (pieceLen fuel : ℕ) (s : I.State)
    (nextIn remain : List UInt8) (hremain : remain.length < gzipRemainBufSize)
    (hfuel : hI.left s nextIn < fuel) :
    (inflateRounds I pieceLen fuel s nextIn remain).next ≠ .stop .diverged ∧
      (inflateRounds I pieceLen fuel s nextIn remain).chunks.flatten.length ≤
        remain.length + hI.left s nextIn ∧
      ((inflateRounds I pieceLen fuel s nextIn remain).tail ≠ [] → pieceLen < qbootCmprsReadSize ∧
        ∃ a, (inflateRounds I pieceLen fuel s nextIn remain).next = .more a) ∧
      ∀ s' r, (inflateRounds I pieceLen fuel s nextIn remain).next = .more (s', r) →
        hI.waits s' ∧ r.length < gzipRemainBufSize ∧ (pieceLen < qbootCmprsReadSize →
          (inflateRounds I pieceLen fuel s nextIn remain).tail = r) := by
  induction fuel generalizing s nextIn remain with
  | zero => exact absurd hfuel (Nat.not_lt_zero _)
  | succ fuel ih =>
    have h32 : gzipRemainBufSize = 32 := rfl
    have h4096 : qbootBufSize = 4096 := rfl
    rw [inflateRounds]
    rcases hinf : I.inflate s nextIn (qbootBufSize - remain.length) with ⟨s', used, _ | out⟩
    · exact ⟨by simp, Nat.zero_le _, fun h => absurd rfl h, fun s'' r h => by simp at h⟩
    have hstep := hI.step _ _ _ _ _ _ hinf
    have hout := I.output_le s nextIn (qbootBufSize - remain.length) out (by rw [hinf])
    have hlen : (remain ++ out).length = remain.length + out.length := List.length_append
    simp only [Reply.consSome_tail, Reply.consSome_next]
    generalize remain ++ out = decmprs at hlen ⊢
    have hmod : decmprs.length % gzipRemainBufSize < gzipRemainBufSize :=
      Nat.mod_lt _ (Nat.succ_pos _)
    have hmodle := Nat.mod_le decmprs.length gzipRemainBufSize
    have hkept : (decmprs.drop (decmprs.length - decmprs.length % gzipRemainBufSize)).length =
        decmprs.length % gzipRemainBufSize := by
      rw [List.length_drop]
      omega
    have htake : (decmprs.take (decmprs.length - decmprs.length % gzipRemainBufSize)).length =
        decmprs.length - decmprs.length % gzipRemainBufSize := by
      rw [List.length_take]
      omega
    have hchunks : ∀ r : Reply (I.State × List UInt8),
        (r.consSome (decmprs.take (decmprs.length - decmprs.length % gzipRemainBufSize))).chunks.flatten.length =
          decmprs.length - decmprs.length % gzipRemainBufSize + r.chunks.flatten.length := by
      intro r
      rw [Reply.consSome, htake]
      split_ifs with hpos
      · rw [Reply.cons, List.flatten_cons, List.length_append, htake]
      · omega
    rw [hchunks]
    split_ifs with hshort hpiece
    · -- zlib waits for input, and a short piece flushes what is held back
      refine ⟨by simp, by simp; omega, fun _ => ⟨hpiece, _, rfl⟩, fun s'' r h => ?_⟩
      cases h
      exact ⟨hI.short _ _ _ _ _ _ hinf hshort, by omega, fun _ => rfl⟩
    · refine ⟨by simp, by simp; omega, fun h => absurd rfl h, fun s'' r h => ?_⟩
      cases h
      exact ⟨hI.short _ _ _ _ _ _ hinf hshort, by omega, fun h => absurd h hpiece⟩
    · -- the output is full, so the input has that much less to give
      obtain ⟨hne, hsize, htail, hmore⟩ := ih s' (nextIn.drop used)
        (decmprs.drop (decmprs.length - decmprs.length % gzipRemainBufSize)) (by omega) (by omega)
      exact ⟨hne, by omega, htail, hmore⟩

/-- Fuel enough for the rounds on a piece. -/
def inflateFuel : ℕ := 2097152

theorem gzipDecoder_tame {I : Inflater} (hI : I.Streams) {fuel : ℕ} (hfuel : inflateFuel ≤ fuel) :
    (gzipDecoder I fuel).Tame
      (fun (a : I.State × List UInt8) => hI.waits a.1 ∧ a.2.length < gzipRemainBufSize)
      fun tail (a : I.State × List UInt8) =>
        hI.waits a.1 ∧ a.2.length < gzipRemainBufSize ∧ a.2 = tail := by
  have h2m : inflateFuel = 2097152 := rfl
  have h1024 : qbootCmprsReadSize = 1024 := rfl
  have h32 : gzipRemainBufSize = 32 := rfl
  have hleft : ∀ {s : I.State} {piece : List UInt8}, hI.waits s →
      piece.length ≤ qbootCmprsReadSize → hI.left s piece ≤ 1065024 := by
    intro s piece hs hpiece
    have := hI.left_le s piece hs
    omega
  have hends : ∀ {a : I.State × List UInt8} {piece : List UInt8},
      hI.waits a.1 ∧ a.2.length < gzipRemainBufSize → piece.length ≤ qbootCmprsReadSize → _ :=
    fun {a piece} ha hpiece => inflateRounds_ends hI piece.length fuel a.1 piece a.2 ha.2 (by
      have := hleft ha.1 hpiece
      omega)
  refine ⟨⟨hI.init, Nat.succ_pos _⟩, ?_, ?_, ?_, ?_, ?_, ?_, ?_⟩
  · rintro a ⟨s', r⟩ piece ha hpiece hnext
    obtain ⟨hs', hr, -⟩ := (hends ha hpiece).2.2.2 s' r hnext
    exact ⟨hs', hr⟩
  · exact fun ha hpiece => (hends ha hpiece).1
  · intro a piece ha hpiece
    have hsize := (hends ha hpiece).2.1
    have := hleft ha.1 hpiece
    have := ha.2
    exact Nat.le_trans hsize (by omega)
  · exact fun _ => (inflateRounds_chunks I _ fuel _ _ _).1
  · exact fun ha hpiece => (hends ha hpiece).2.2.1
  · rintro a ⟨s', r⟩ piece ha hpiece hnext
    obtain ⟨hs', hr, htail⟩ := (hends ha (Nat.le_of_lt hpiece)).2.2.2 s' r hnext
    exact ⟨hs', hr, (htail hpiece).symm⟩
  · -- without input the remainder is flushed as it is
    rintro ⟨s, r⟩ tail ⟨hs, hr, rfl⟩
    obtain ⟨s', used, hinf, hs'⟩ := hI.dry s (qbootBufSize - r.length) hs
    obtain ⟨fuel, rfl⟩ : ∃ k, fuel = k + 1 := ⟨fuel - 1, by omega⟩
    have hmod : r.length % gzipRemainBufSize = r.length := Nat.mod_eq_of_lt hr
    have hroom : 0 < qbootBufSize - r.length := by
      have hlt : r.length < gzipRemainBufSize := hr
      have : qbootBufSize = 4096 := rfl
      omega
    have hfeed : (gzipDecoder I (fuel + 1)).feed (s, r) [] = ⟨[], r, .more (s', r)⟩ := by
      show inflateRounds I 0 (fuel + 1) s [] r = _
      rw [inflateRounds]
      simp only [hinf, List.append_nil, hmod, Nat.sub_self, List.take_zero, List.drop_zero,
        List.length_nil, if_pos hroom, Reply.consSome, Nat.lt_irrefl, if_false]
      rfl
    rw [hfeed]
    exact ⟨rfl, rfl, hr, (s', r), rfl, hs', hr, rfl⟩

/-- The decoders are tame, and only that of gzip flushes anything. -/
theorem decoderOf_tame (hI : P.inflater.Streams) {fuel cmprsType : ℕ} {d : Decoder}
    (hfuel : inflateFuel ≤ fuel) (h : decoderOf P fuel cmprsType = some d) :
    ∃ Good Dry, d.Tame Good Dry ∧
      (cmprsType ≠ qbootAlgoCmprsGzip → ∀ tail a, Dry tail a → tail = []) := by
  rw [decoderOf] at h
  split_ifs at h with hnone hgzip hqlz hflz
  · obtain rfl := Option.some.inj h
    exact ⟨_, _, noneDecoder_tame, fun _ _ _ h => h⟩
  · obtain rfl := Option.some.inj h
    exact ⟨_, _, gzipDecoder_tame hI hfuel, fun hne => absurd hgzip hne⟩
  · obtain rfl := Option.some.inj h
    exact ⟨_, _, framedDecoder_tame _, fun _ _ _ h => h.1⟩
  · obtain rfl := Option.some.inj h
    exact ⟨_, _, framedDecoder_tame _, fun _ _ _ h => h.1⟩

/-! ## Counting decoded bytes -/

/-- A policy counts at least what is there, up to what is missing, and little more. -/
structure Policy.Fair (π : Policy) : Prop where
  put_le : ∀ left bs, (π.put left bs).length ≤ bs.length
  le_put : ∀ left bs, min bs.length left ≤ (π.put left bs).length
  flush_le : ∀ left bs, bs.length < gzipRemainBufSize →
    (π.flush left bs).length ≤ gzipRemainBufSize
  le_flush : ∀ left bs, min bs.length left ≤ (π.flush left bs).length

theorem destPolicy_fair : destPolicy.Fair where
  put_le _ _ := Nat.le_refl _
  le_put _ _ := Nat.min_le_left _ _
  flush_le left bs h := by
    simp only [destPolicy, List.length_append, List.length_replicate]
    omega
  le_flush left bs := by
    simp only [destPolicy, List.length_append, List.length_replicate]
    omega

theorem crcPolicy_fair : crcPolicy.Fair where
  put_le left bs := by
    simp only [crcPolicy, List.length_take]
    omega
  le_put left bs := by
    simp only [crcPolicy, List.length_take]
    omega
  flush_le left bs h := by
    simp only [crcPolicy, List.length_take]
    omega
  le_flush left bs := by
    simp only [crcPolicy, List.length_take]
    omega

section Count

variable {π : Policy} {A : Type} {left : ℕ} {r : Reply A}

theorem Policy.Fair.chunkBytes (hπ : π.Fair) (left : ℕ) (r : Reply A) :
    (π.chunkBytes left r).length ≤ r.chunks.flatten.length ∧
      min r.chunks.flatten.length left ≤ (π.chunkBytes left r).length := by
  rw [Policy.chunkBytes]
  induction r.chunks with
  | nil => exact ⟨Nat.le_refl _, Nat.min_le_left _ _⟩
  | cons c cs ih =>
    have hle := hπ.put_le left c
    have hge := hπ.le_put left c
    rw [List.flatMap_cons, List.flatten_cons, List.length_append, List.length_append]
    omega

/-- How far a reply moves the position on. -/
theorem Policy.Fair.count (hπ : π.Fair) (left : ℕ) (htail : r.tail.length < gzipRemainBufSize) :
    min r.bytes.length left ≤ (π.chunkBytes left r ++ π.tailBytes left r).length ∧
      (π.chunkBytes left r ++ π.tailBytes left r).length ≤
        r.chunks.flatten.length + gzipRemainBufSize ∧
      (r.tail = [] → (π.chunkBytes left r ++ π.tailBytes left r).length ≤ r.bytes.length) := by
  obtain ⟨hle, hge⟩ := hπ.chunkBytes left r
  have hfle := hπ.flush_le left r.tail htail
  have hfge := hπ.le_flush left r.tail
  rw [Reply.bytes, List.length_append, List.length_append, Policy.tailBytes]
  split_ifs with hnil
  · rw [hnil, List.length_nil]
    exact ⟨by omega, by omega, fun _ => by omega⟩
  · exact ⟨by omega, by omega, fun h => absurd h hnil⟩

end Count

section Drive

variable {d : Decoder} {Good : d.State → Prop} {Dry : List UInt8 → d.State → Prop} {π : Policy}
  {rawSize fuel pos avail : ℕ} {a : d.State} {rest tail : List UInt8}

/-- Without input a dry decoder without a remainder makes no progress. -/
theorem Decoder.Tame.drive_idle (ht : d.Tame Good Dry) (hπ : π.Fair) (ha : Dry [] a)
    (hpos : pos < rawSize) (hlt : pos < 4294967296) :
    (d.drive π rawSize fuel a pos avail []).fin = .stop .diverged := by
  induction fuel generalizing a avail with
  | zero => rfl
  | succ fuel ih =>
    obtain ⟨hchunks, htail, -, a', hnext, ha'⟩ := ht.idle ha
    have hcount := (hπ.chunkBytes (rawSize - pos) (d.feed a [])).1
    rw [hchunks] at hcount
    have hnil : π.chunkBytes (rawSize - pos) (d.feed a []) = [] :=
      List.eq_nil_of_length_eq_zero (Nat.le_zero.1 hcount)
    rw [Decoder.drive_piece hpos (Nat.zero_le _)]
    simp only [List.take_nil, hnext, Trace.after_fin, List.drop_nil]
    rw [hnil, Policy.tailBytes, if_pos htail, List.append_nil, List.length_nil, Nat.add_zero,
      u32_of_lt hlt]
    exact ih ha'

theorem dvd_chunkBytes {n left : ℕ} {A : Type} {r : Reply A} (h : ∀ c ∈ r.chunks, n ∣ c.length) :
    n ∣ (destPolicy.chunkBytes left r).length := by
  rw [Policy.chunkBytes]
  generalize r.chunks = cs at h
  induction cs with
  | nil => exact Nat.dvd_zero _
  | cons c cs ih =>
    rw [List.flatMap_cons, List.length_append]
    exact Nat.dvd_add (h c List.mem_cons_self) (ih fun c' hc' => h c' (List.mem_cons_of_mem _ hc'))

/-- The count goes at most one call past the end. -/
theorem Decoder.Tame.drive_out_le (ht : d.Tame Good Dry) (hπ : π.Fair) (hraw : rawSize < 2147483648)
    (ha : Good a) (hpos : pos ≤ rawSize + 67108896) :
    pos + (d.drive π rawSize fuel a pos avail rest).out.length ≤ rawSize + 67108896 := by
  induction fuel generalizing a pos avail rest with
  | zero => exact hpos
  | succ fuel ih =>
    rcases Nat.lt_or_ge pos rawSize with hlt | hge
    swap
    · rw [Decoder.drive_reached hge]
      exact hpos
    rcases Nat.lt_or_ge avail (rest.take qbootCmprsReadSize).length with hout | hin
    · rw [Decoder.drive_out hlt hout]
      exact hpos
    have h32 : gzipRemainBufSize = 32 := rfl
    have hlen : (rest.take qbootCmprsReadSize).length ≤ qbootCmprsReadSize := List.length_take_le ..
    have hsize := ht.size ha hlen
    have hcount := (hπ.count (rawSize - pos) (@ht.tail_lt a (rest.take qbootCmprsReadSize) ha)).2.1
    have hchunks := (hπ.chunkBytes (rawSize - pos) (d.feed a (rest.take qbootCmprsReadSize))).1
    rw [Decoder.drive_piece hlt hin]
    cases hnext : (d.feed a (rest.take qbootCmprsReadSize)).next with
    | bad =>
      show pos + (π.chunkBytes _ _).length ≤ _
      omega
    | stop x =>
      show pos + (π.chunkBytes _ _).length ≤ _
      omega
    | more a' =>
      simp only
      rw [Trace.after_out, List.length_append, u32_of_lt (by omega), ← Nat.add_assoc]
      exact ih (ht.good ha hlen hnext) (by omega)

end Drive

end RtThreadOta
