import RtThreadOta.Qboot.Release

/-!
# What decoding a package means

A `Decoder` takes the plaintext of a package in pieces and answers each with the chunks it has
decoded; at the end it may flush what it held back. `drive` is the release loop without memory and
flash: it feeds the pieces until enough bytes are out. The three decoders here are the arms of
`qbt_dest_part_write` on lists instead of buffers. A `Policy` says which bytes of a chunk count.
-/

namespace RtThreadOta

open Words

/-- How a decoder goes on after a piece. -/
inductive Next (A : Type) where
  | more (a : A)
  /-- the piece is corrupt -/
  | bad
  | stop (h : Halt)

/-- What a decoder makes of a piece: chunks in order, then bytes to flush. -/
structure Reply (A : Type) where
  chunks : List (List UInt8)
  tail : List UInt8
  next : Next A

/-- A streaming decoder. -/
structure Decoder where
  State : Type
  init : State
  feed : State → List UInt8 → Reply State

/-- Which bytes a sink takes of a chunk and of a flush when `left` are missing. -/
structure Policy where
  put : (left : ℕ) → List UInt8 → List UInt8
  flush : (left : ℕ) → List UInt8 → List UInt8

/-- The bytes `qbt_dest_part_write` writes. -/
def destPolicy : Policy where
  put _ bs := bs
  flush _ bs := bs ++ List.replicate (gzipRemainBufSize - bs.length) 0xFF

/-- The bytes `qbt_app_crc_cal` puts through the CRC. -/
def crcPolicy : Policy where
  put left bs := bs.take left
  flush left bs := bs.take left

/-- The bytes of the chunks. -/
def Policy.chunkBytes (π : Policy) (left : ℕ) {A : Type} (r : Reply A) : List UInt8 :=
  r.chunks.flatMap (π.put left)

/-- The bytes of the flush. -/
def Policy.tailBytes (π : Policy) (left : ℕ) {A : Type} (r : Reply A) : List UInt8 :=
  if r.tail = [] then [] else π.flush left r.tail

/-- How driving a decoder ends. -/
inductive DriveEnd where
  /-- enough bytes are out -/
  | reached
  | bad
  | stop (h : Halt)
deriving DecidableEq, Repr

/-- A driven decoder: the bytes that came out, chunk by chunk and altogether, the positions of the
flushes, and the end. -/
structure Trace where
  puts : List (List UInt8)
  out : List UInt8
  flushes : List ℕ
  fin : DriveEnd

/-- A reply at a position, followed by the rest. -/
def Trace.after (π : Policy) (left pos : ℕ) {A : Type} (r : Reply A) (t : Trace) : Trace where
  puts := r.chunks.map (π.put left) ++ t.puts
  out := π.chunkBytes left r ++ π.tailBytes left r ++ t.out
  flushes := if r.tail = [] then t.flushes else (pos + (π.chunkBytes left r).length) :: t.flushes
  fin := t.fin

@[simp] theorem Trace.after_out (π : Policy) (left pos : ℕ) {A : Type} (r : Reply A) (t : Trace) :
    (Trace.after π left pos r t).out = π.chunkBytes left r ++ π.tailBytes left r ++ t.out := rfl

@[simp] theorem Trace.after_puts (π : Policy) (left pos : ℕ) {A : Type} (r : Reply A) (t : Trace) :
    (Trace.after π left pos r t).puts = r.chunks.map (π.put left) ++ t.puts := rfl

theorem Trace.after_flushes (π : Policy) (left pos : ℕ) {A : Type} (r : Reply A) (t : Trace) :
    (Trace.after π left pos r t).flushes =
      if r.tail = [] then t.flushes else (pos + (π.chunkBytes left r).length) :: t.flushes := rfl

@[simp] theorem Trace.after_fin (π : Policy) (left pos : ℕ) {A : Type} (r : Reply A) (t : Trace) :
    (Trace.after π left pos r t).fin = t.fin := rfl

/-- The end at a reply that cannot be gone on from. -/
def Trace.last (π : Policy) (left : ℕ) {A : Type} (r : Reply A) (fin : DriveEnd) : Trace where
  puts := r.chunks.map (π.put left)
  out := π.chunkBytes left r
  flushes := []
  fin := fin

/-- Feed `rest` in pieces until `rawSize` bytes are out, as long as the pieces lie within the next
`avail` bytes of the partition; the position is a `u32`. -/
def Decoder.drive (d : Decoder) (π : Policy) (rawSize : ℕ) :
    (fuel : ℕ) → d.State → (pos avail : ℕ) → (rest : List UInt8) → Trace
  | 0, _, _, _, _ => ⟨[], [], [], .stop .diverged⟩
  | fuel + 1, a, pos, avail, rest =>
    if pos < rawSize then
      let piece := rest.take qbootCmprsReadSize
      if avail < piece.length then ⟨[], [], [], .bad⟩
      else
        let r := d.feed a piece
        match r.next with
        | .more a' =>
          Trace.after π (rawSize - pos) pos r
            (d.drive π rawSize fuel a'
              (u32 (pos +
                (π.chunkBytes (rawSize - pos) r ++ π.tailBytes (rawSize - pos) r).length))
              (avail - piece.length) (rest.drop qbootCmprsReadSize))
        | .bad => .last π (rawSize - pos) r .bad
        | .stop h => .last π (rawSize - pos) r (.stop h)
    else ⟨[], [], [], .reached⟩

section Drive

variable {d : Decoder} {π : Policy} {rawSize fuel pos avail : ℕ} {a : d.State} {rest : List UInt8}

theorem Decoder.drive_reached (h : rawSize ≤ pos) :
    d.drive π rawSize (fuel + 1) a pos avail rest = ⟨[], [], [], .reached⟩ := by
  rw [drive, if_neg (by omega)]

theorem Decoder.drive_out (h : pos < rawSize) (hout : avail < (rest.take qbootCmprsReadSize).length) :
    d.drive π rawSize (fuel + 1) a pos avail rest = ⟨[], [], [], .bad⟩ := by
  rw [drive, if_pos h]
  exact if_pos hout

/-- What is driven from a piece within the partition. -/
theorem Decoder.drive_piece (h : pos < rawSize)
    (hin : (rest.take qbootCmprsReadSize).length ≤ avail) :
    d.drive π rawSize (fuel + 1) a pos avail rest =
      match (d.feed a (rest.take qbootCmprsReadSize)).next with
      | .more a' =>
        Trace.after π (rawSize - pos) pos (d.feed a (rest.take qbootCmprsReadSize))
          (d.drive π rawSize fuel a'
            (u32 (pos + (π.chunkBytes (rawSize - pos) (d.feed a (rest.take qbootCmprsReadSize)) ++
              π.tailBytes (rawSize - pos) (d.feed a (rest.take qbootCmprsReadSize))).length))
            (avail - (rest.take qbootCmprsReadSize).length) (rest.drop qbootCmprsReadSize))
      | .bad => .last π (rawSize - pos) (d.feed a (rest.take qbootCmprsReadSize)) .bad
      | .stop h => .last π (rawSize - pos) (d.feed a (rest.take qbootCmprsReadSize)) (.stop h) := by
  rw [drive, if_pos h]
  exact if_neg (by omega)

/-- The first reply comes out first, however it goes on. -/
theorem Decoder.drive_prefix (h : pos < rawSize)
    (hin : (rest.take qbootCmprsReadSize).length ≤ avail) :
    ∃ ps os, (d.drive π rawSize (fuel + 1) a pos avail rest).puts =
        (d.feed a (rest.take qbootCmprsReadSize)).chunks.map (π.put (rawSize - pos)) ++ ps ∧
      (d.drive π rawSize (fuel + 1) a pos avail rest).out =
        π.chunkBytes (rawSize - pos) (d.feed a (rest.take qbootCmprsReadSize)) ++ os := by
  rw [drive_piece h hin]
  cases (d.feed a (rest.take qbootCmprsReadSize)).next with
  | more a' => exact ⟨_, _, rfl, List.append_assoc ..⟩
  | bad => exact ⟨[], [], (List.append_nil _).symm, (List.append_nil _).symm⟩
  | stop h => exact ⟨[], [], (List.append_nil _).symm, (List.append_nil _).symm⟩

end Drive

/-- A decoder whose chunks are multiples of `unit` and which flushes less than 32 bytes. -/
structure Decoder.Lawful (d : Decoder) (unit : ℕ) : Prop where
  dvd : ∀ a piece, ∀ c ∈ (d.feed a piece).chunks, unit ∣ c.length
  tail : ∀ a piece, (d.feed a piece).tail ≠ [] →
    unit = gzipRemainBufSize ∧ (d.feed a piece).tail.length < gzipRemainBufSize

/-! ## The arms -/

/-- The arm `QBOOT_ALGO_CMPRS_NONE`. -/
def noneDecoder : Decoder where
  State := Unit
  init := ()
  feed _ piece := ⟨[piece], [], .more ()⟩

/-- A chunk in front of a reply. -/
def Reply.cons {A : Type} (chunk : List UInt8) (r : Reply A) : Reply A :=
  ⟨chunk :: r.chunks, r.tail, r.next⟩

/-- The same for a chunk that may be empty, which is not handed over. -/
def Reply.consSome {A : Type} (chunk : List UInt8) (r : Reply A) : Reply A :=
  if 0 < chunk.length then .cons chunk r else r

@[simp] theorem Reply.consSome_tail {A : Type} (chunk : List UInt8) (r : Reply A) :
    (r.consSome chunk).tail = r.tail := by
  rw [consSome]
  split <;> rfl

@[simp] theorem Reply.consSome_next {A : Type} (chunk : List UInt8) (r : Reply A) :
    (r.consSome chunk).next = r.next := by
  rw [consSome]
  split <;> rfl

/-- Take complete blocks off the bytes. -/
def drain (decompress : List UInt8 → List UInt8) : (left : ℕ) → List UInt8 → Reply (List UInt8)
  | 0, _ => ⟨[], [], .stop .diverged⟩
  | left + 1, bs =>
    if bs.length < blockHdrSize then ⟨[], [], .more bs⟩
    else
      let blockSize := toInt32 (be32 bs 0)
      if blockSize ≤ 0 then ⟨[], [], .more bs⟩
      else if intMax < blockSize + blockHdrSize then ⟨[], [], .stop .undefined⟩
      else if (bs.length : ℤ) < blockSize + blockHdrSize then ⟨[], [], .more bs⟩
      else
        let out := decompress ((bs.drop blockHdrSize).take blockSize.toNat)
        if qbootBufSize < out.length then ⟨[], [], .stop .undefined⟩
        else if out.length = 0 then ⟨[], [], .bad⟩
        else .cons out (drain decompress left (bs.drop (blockSize.toNat + blockHdrSize)))

/-- The arms of the framed codecs: the state is the bytes of `cmprs_buf` not yet used. A piece that
does not fit behind them overruns the buffer. -/
def framedDecoder (decompress : List UInt8 → List UInt8) : Decoder where
  State := List UInt8
  init := []
  feed residue piece :=
    if qbootCmprsBufSize < residue.length + piece.length then ⟨[], [], .stop .undefined⟩
    else drain decompress (residue.length + piece.length + 1) (residue ++ piece)

theorem framedDecoder_overrun {decompress : List UInt8 → List UInt8} {residue piece : List UInt8}
    (h : qbootCmprsBufSize < residue.length + piece.length) :
    (framedDecoder decompress).feed residue piece = ⟨[], [], .stop .undefined⟩ := if_pos h

theorem framedDecoder_feed {decompress : List UInt8 → List UInt8} {residue piece : List UInt8}
    (h : residue.length + piece.length ≤ qbootCmprsBufSize) :
    (framedDecoder decompress).feed residue piece =
      drain decompress (residue.length + piece.length + 1) (residue ++ piece) :=
  if_neg (by omega)

/-- The rounds of the gzip arm on a piece of `pieceLen` bytes of which `nextIn` is left. -/
def inflateRounds (I : Inflater) (pieceLen : ℕ) :
    (fuel : ℕ) → I.State → (nextIn remain : List UInt8) → Reply (I.State × List UInt8)
  | 0, _, _, _ => ⟨[], [], .stop .diverged⟩
  | fuel + 1, s, nextIn, remain =>
    let room := qbootBufSize - remain.length
    match I.inflate s nextIn room with
    | (s', used, res) =>
      match res with
      | none => ⟨[], [], .bad⟩
      | some out =>
        let decmprs := remain ++ out
        let n := decmprs.length - decmprs.length % gzipRemainBufSize
        .consSome (decmprs.take n)
          (if out.length < room then
            ⟨[], if pieceLen < qbootCmprsReadSize then decmprs.drop n else [],
              .more (s', decmprs.drop n)⟩
          else inflateRounds I pieceLen fuel s' (nextIn.drop used) (decmprs.drop n))

/-- The arm `QBOOT_ALGO_CMPRS_GZIP`: zlib's state and the bytes held back. -/
def gzipDecoder (I : Inflater) (fuel : ℕ) : Decoder where
  State := I.State × List UInt8
  init := (I.init, [])
  feed a piece := inflateRounds I piece.length fuel a.1 piece a.2

@[simp] theorem Reply.mem_consSome {A : Type} {chunk c : List UInt8} {r : Reply A} :
    c ∈ (r.consSome chunk).chunks ↔ 0 < chunk.length ∧ c = chunk ∨ c ∈ r.chunks := by
  rw [consSome]
  split
  · rename_i h
    simp [cons, h]
  · rename_i h
    simp [h]

theorem drain_chunks {decompress : List UInt8 → List UInt8} (left : ℕ) (bs : List UInt8) :
    (drain decompress left bs).tail = [] ∧
      ∀ c ∈ (drain decompress left bs).chunks, 0 < c.length ∧ c.length ≤ qbootBufSize := by
  induction left generalizing bs with
  | zero => exact ⟨rfl, fun c hc => by cases hc⟩
  | succ left ih =>
    rw [drain]
    dsimp only
    repeat' split
    all_goals try exact ⟨rfl, fun c hc => by cases hc⟩
    rename_i hbig hzero
    obtain ⟨htail, hchunks⟩ := ih (bs.drop ((toInt32 (be32 bs 0)).toNat + blockHdrSize))
    refine ⟨htail, fun c hc => ?_⟩
    rcases List.mem_cons.1 hc with rfl | hc
    · omega
    · exact hchunks c hc

theorem inflateRounds_chunks (I : Inflater) (pieceLen fuel : ℕ) (s : I.State)
    (nextIn remain : List UInt8) :
    (inflateRounds I pieceLen fuel s nextIn remain).tail.length < gzipRemainBufSize ∧
      ∀ c ∈ (inflateRounds I pieceLen fuel s nextIn remain).chunks,
        gzipRemainBufSize ∣ c.length ∧ 0 < c.length ∧
          (remain.length ≤ qbootBufSize → c.length ≤ qbootBufSize) := by
  induction fuel generalizing s nextIn remain with
  | zero => exact ⟨Nat.succ_pos _, fun c hc => by cases hc⟩
  | succ fuel ih =>
    rw [inflateRounds]
    rcases hinf : I.inflate s nextIn (qbootBufSize - remain.length) with ⟨s', used, _ | out⟩
    · exact ⟨Nat.succ_pos _, fun c hc => by cases hc⟩
    have hout := I.output_le s nextIn (qbootBufSize - remain.length) out (by rw [hinf])
    have hlen : (remain ++ out).length = remain.length + out.length := List.length_append
    simp only [Reply.consSome_tail, Reply.mem_consSome]
    generalize remain ++ out = decmprs at hlen ⊢
    have hmod : decmprs.length % gzipRemainBufSize < gzipRemainBufSize :=
      Nat.mod_lt _ (Nat.succ_pos _)
    have hdrop : (decmprs.drop (decmprs.length - decmprs.length % gzipRemainBufSize)).length <
        gzipRemainBufSize := by
      rw [List.length_drop]
      omega
    have htake : (decmprs.take (decmprs.length - decmprs.length % gzipRemainBufSize)).length =
        decmprs.length - decmprs.length % gzipRemainBufSize := by
      rw [List.length_take]
      omega
    have hdvd : gzipRemainBufSize ∣ decmprs.length - decmprs.length % gzipRemainBufSize :=
      Nat.dvd_sub_mod _
    obtain ⟨htail, hchunks⟩ := ih s' (nextIn.drop used)
      (decmprs.drop (decmprs.length - decmprs.length % gzipRemainBufSize))
    have hkept : (decmprs.drop (decmprs.length - decmprs.length % gzipRemainBufSize)).length ≤
        qbootBufSize := Nat.le_trans (Nat.le_of_lt hdrop) (by decide)
    refine ⟨?_, fun c hc => ?_⟩
    · split
      · dsimp only
        split
        · exact hdrop
        · exact Nat.succ_pos _
      · exact htail
    · rcases hc with ⟨hpos, rfl⟩ | hc
      · rw [htake] at hpos ⊢
        exact ⟨hdvd, hpos, fun h => by omega⟩
      · split at hc
        · cases hc
        · obtain ⟨h₁, h₂, h₃⟩ := hchunks c hc
          exact ⟨h₁, h₂, fun _ => h₃ hkept⟩

theorem noneDecoder_lawful : noneDecoder.Lawful 1 where
  dvd _ _ _ _ := Nat.one_dvd _
  tail _ _ h := absurd rfl h

theorem framedDecoder_lawful (decompress : List UInt8 → List UInt8) :
    (framedDecoder decompress).Lawful 1 where
  dvd _ _ _ _ := Nat.one_dvd _
  tail (residue : List UInt8) piece h := by
    refine absurd ?_ h
    rcases Nat.lt_or_ge qbootCmprsBufSize (residue.length + piece.length) with hover | hfit
    · rw [framedDecoder_overrun hover]
    · rw [framedDecoder_feed hfit]
      exact (drain_chunks _ _).1

theorem gzipDecoder_lawful (I : Inflater) (fuel : ℕ) :
    (gzipDecoder I fuel).Lawful gzipRemainBufSize where
  dvd a piece c hc := ((inflateRounds_chunks I piece.length fuel a.1 piece a.2).2 c hc).1
  tail a piece _ := ⟨rfl, (inflateRounds_chunks I piece.length fuel a.1 piece a.2).1⟩

/-- The decoder of a compression type, `none` when it is not supported. -/
def decoderOf (P : Codecs) (fuel cmprsType : ℕ) : Option Decoder :=
  if cmprsType = qbootAlgoCmprsNone then some noneDecoder
  else if cmprsType = qbootAlgoCmprsGzip then some (gzipDecoder P.inflater fuel)
  else if cmprsType = qbootAlgoCmprsQuicklz then some (framedDecoder P.qlzDecompress)
  else if cmprsType = qbootAlgoCmprsFastlz then
    some (framedDecoder fun block => P.fastlzDecompress block qbootBufSize)
  else none

/-- The chunks of gzip are multiples of 32 bytes. -/
def decoderUnit (cmprsType : ℕ) : ℕ :=
  if cmprsType = qbootAlgoCmprsGzip then gzipRemainBufSize else 1

theorem decoderOf_lawful {P : Codecs} {fuel cmprsType : ℕ} {d : Decoder}
    (h : decoderOf P fuel cmprsType = some d) : d.Lawful (decoderUnit cmprsType) := by
  rw [decoderOf] at h
  split at h
  · rename_i hc
    obtain rfl := Option.some.inj h
    exact hc ▸ noneDecoder_lawful
  split at h
  · rename_i hc
    obtain rfl := Option.some.inj h
    exact hc ▸ gzipDecoder_lawful P.inflater fuel
  split at h
  · rename_i hc
    obtain rfl := Option.some.inj h
    exact hc ▸ framedDecoder_lawful _
  split at h
  · rename_i hc
    obtain rfl := Option.some.inj h
    exact hc ▸ framedDecoder_lawful _
  · cases h

end RtThreadOta
