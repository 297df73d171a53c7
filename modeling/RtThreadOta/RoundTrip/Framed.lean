import Mathlib.Algebra.BigOperators.Group.List.Basic
import Mathlib.Algebra.GroupWithZero.Nat
import RtThreadOta.RoundTrip.Packed

/-!
# QuickLZ and FastLZ packages

The tool cuts the file into chunks of 4096 bytes and writes each as a block. The arm takes complete
blocks off the bytes in `cmprs_buf` and keeps the rest, the residue, in front of the next 1024-byte
read. A residue may be longer than the 4096 bytes that leave room for a whole read, and then the read
overruns the buffer: `BlocksFit` says of the block lengths that this does not happen.
-/

namespace RtThreadOta

open Interaction Nor Words

variable {L : Layout} {P : Codecs} {K : PackCodecs} {dst src : FalPartition} {ram : Ram P}
  {dstName srcName : PartName} {encrypt : Bool} {pi : PackInfo} {file : List UInt8} {fuel : ℕ}
  {env : Env} {s : Board}

/-! ## Blocks -/

/-- A chunk as the tool writes it. -/
def block (compress : List UInt8 → List UInt8) (chunk : List UInt8) : List UInt8 :=
  encodeBe32 (compress chunk).length ++ compress chunk

/-- The chunks the tool cuts a file into; the fuel is the number of bytes left. -/
def fileChunks : (left : ℕ) → List UInt8 → List (List UInt8)
  | 0, _ => []
  | _ + 1, [] => []
  | left + 1, b :: bs => (b :: bs).take 4096 :: fileChunks left ((b :: bs).drop 4096)

theorem compressChunks_eq (compress : List UInt8 → List UInt8) (left : ℕ) (file : List UInt8) :
    compressChunks compress left file = (fileChunks left file).flatMap (block compress) := by
  induction left generalizing file with
  | zero => rfl
  | succ left ih =>
    cases file with
    | nil => rfl
    | cons b bs =>
      rw [compressChunks, fileChunks, List.flatMap_cons, ← ih]
      rfl

theorem fileChunks_flatten {left : ℕ} (h : file.length ≤ left) :
    (fileChunks left file).flatten = file := by
  induction left generalizing file with
  | zero => exact (List.eq_nil_of_length_eq_zero (by omega)).symm
  | succ left ih =>
    cases file with
    | nil => rfl
    | cons b bs =>
      rw [List.length_cons] at h
      rw [fileChunks, List.flatten_cons, ih (by rw [List.length_drop, List.length_cons]; omega),
        List.take_append_drop]

/-- A chunk of a file. -/
def IsChunk (c : List UInt8) : Prop := 0 < c.length ∧ c.length ≤ 4096

theorem fileChunks_isChunk (left : ℕ) (file : List UInt8) : ∀ c ∈ fileChunks left file, IsChunk c := by
  induction left generalizing file with
  | zero => exact fun c hc => by cases hc
  | succ left ih =>
    cases file with
    | nil => exact fun c hc => by cases hc
    | cons b bs =>
      intro c hc
      rcases List.mem_cons.1 hc with rfl | hc
      · rw [IsChunk, List.length_take, List.length_cons]
        omega
      · exact ih _ c hc

/-- How far a position lies behind the start of the block it lies in. -/
def residueAt : List ℕ → ℕ → ℕ
  | [], c => c
  | n :: ns, c => if n ≤ c then residueAt ns (c - n) else c

/-- From a position on, with `left` bytes behind it, no read meets a residue it overruns the buffer
with, as long as there are blocks to complete. -/
def BlocksFit (ns : List ℕ) (start left : ℕ) : Prop :=
  ∀ k, start + qbootCmprsReadSize * k < ns.sum →
    residueAt ns (start + qbootCmprsReadSize * k) +
      min qbootCmprsReadSize (left - qbootCmprsReadSize * k) ≤ qbootCmprsBufSize

theorem residueAt_append (ns ms : List ℕ) (c : ℕ) :
    residueAt (ns ++ ms) (ns.sum + c) = residueAt ms c := by
  induction ns with
  | nil =>
    rw [List.nil_append, List.sum_nil, Nat.zero_add]
  | cons n ns ih =>
    rw [List.cons_append, residueAt, List.sum_cons, if_pos (by omega)]
    have hsub : n + ns.sum + c - n = ns.sum + c := by omega
    rw [hsub, ih]

/-- One read: it fits itself, and the reads after it fit behind the blocks it completed. -/
theorem blocksFit_step {ns ms : List ℕ} {x y left : ℕ} (hx : residueAt (ns ++ ms) x = x)
    (hlt : x < (ns ++ ms).sum) (hy : ns.sum + y = x + min qbootCmprsReadSize left)
    (hlast : left < qbootCmprsReadSize → ms = []) :
    BlocksFit (ns ++ ms) x left ↔
      x + min qbootCmprsReadSize left ≤ qbootCmprsBufSize ∧
        BlocksFit ms y (left - qbootCmprsReadSize) := by
  have hpos : 0 < qbootCmprsReadSize := Nat.succ_pos _
  have hsum : (ns ++ ms).sum = ns.sum + ms.sum := List.sum_append
  unfold BlocksFit
  generalize qbootCmprsReadSize = r at *
  -- the read number `k + 1` of the one is number `k` of the other
  have hshift : r ≤ left → ∀ k, x + r * (k + 1) = ns.sum + (y + r * k) := by
    intro hleft k
    rw [Nat.mul_succ]
    omega
  have hsub : ∀ k, left - r * (k + 1) = left - r - r * k := by
    intro k
    rw [Nat.mul_succ]
    omega
  constructor
  · intro h
    refine ⟨?_, fun k hk => ?_⟩
    · have h₀ := h 0 (by rwa [Nat.mul_zero, Nat.add_zero])
      rwa [Nat.mul_zero, Nat.add_zero, hx, Nat.sub_zero] at h₀
    · rcases Nat.lt_or_ge left r with hshort | hlong
      · rw [hlast hshort, List.sum_nil] at hk
        omega
      · have hk' := h (k + 1) (by rw [hshift hlong]; omega)
        rwa [hshift hlong, residueAt_append, hsub] at hk'
  · rintro ⟨h₀, h⟩ k hk
    cases k with
    | zero => rwa [Nat.mul_zero, Nat.add_zero, hx, Nat.sub_zero]
    | succ k =>
      rcases Nat.lt_or_ge left r with hshort | hlong
      · rw [hlast hshort, List.append_nil, Nat.mul_succ] at hk
        omega
      · have hk' := h k (by rw [hshift hlong] at hk; omega)
        rwa [hshift hlong, residueAt_append, hsub]

/-! ## Draining -/

/-- What the arm relies on of a framed codec: it inverts, a compressed chunk is not empty, and it fits
into the tool's output buffer. -/
structure Inverts (compress decompress : List UInt8 → List UInt8) (outBuf : ℕ) : Prop where
  decompress : ∀ c, IsChunk c → decompress (compress c) = c
  pos : ∀ c, IsChunk c → 0 < (compress c).length
  le : ∀ c, IsChunk c → (compress c).length ≤ outBuf

section Drain

variable {compress decompress : List UInt8 → List UInt8} {outBuf : ℕ}

theorem block_length (compress : List UInt8 → List UInt8) (c : List UInt8) : (block compress c).length = (compress c).length + 4 := by
  rw [block, List.length_append, encodeBe32_length, Nat.add_comm]

/-- Less than a block is kept. -/
theorem drain_incomplete (hcodec : Inverts compress decompress outBuf) (hbuf : outBuf < 2147483643)
    {c bs t t' : List UInt8} (hc : IsChunk c) (hbs : bs ++ t = block compress c ++ t')
    (hlt : bs.length < (block compress c).length) (left : ℕ) :
    drain decompress (left + 1) bs = ⟨[], [], .more bs⟩ := by
  have hlen := block_length compress c
  have hpos := hcodec.pos c hc
  have hle := hcodec.le c hc
  rw [drain]
  by_cases hhdr : bs.length < blockHdrSize
  · rw [if_pos hhdr]
  rw [if_neg hhdr]
  have h4 : blockHdrSize = 4 := rfl
  have hsize : be32 bs 0 = (compress c).length := by
    have htake : bs = (block compress c ++ t').take bs.length := by
      rw [← hbs, List.take_left' rfl]
    rw [htake, be32_take _ (by omega), block, List.append_assoc]
    exact be32_encodeBe32 (by omega) _
  rw [hsize, toInt32_of_lt (by omega)]
  have hmax : intMax = 2147483647 := rfl
  rw [hmax]
  dsimp only
  rw [if_neg (by omega), if_neg (by omega), if_pos (by omega)]

/-- A complete block is decoded. -/
theorem drain_complete (hcodec : Inverts compress decompress outBuf) (hbuf : outBuf < 2147483643)
    {c : List UInt8} (hc : IsChunk c) (bs : List UInt8) (left : ℕ) :
    drain decompress (left + 1) (block compress c ++ bs) = .cons c (drain decompress left bs) := by
  have hlen := block_length compress c
  have hpos := hcodec.pos c hc
  have hle := hcodec.le c hc
  have h4 : blockHdrSize = 4 := rfl
  have hmax : intMax = 2147483647 := rfl
  have hsize : be32 (block compress c ++ bs) 0 = (compress c).length := by
    rw [block, List.append_assoc]
    exact be32_encodeBe32 (by omega) _
  have hdrop : (block compress c ++ bs).drop 4 = compress c ++ bs := by
    rw [block, List.append_assoc, List.drop_left' (encodeBe32_length _)]
  rw [drain, List.length_append, hsize, toInt32_of_lt (by omega), hmax, h4]
  dsimp only
  rw [if_neg (by omega), if_neg (by omega), if_neg (by omega), if_neg (by omega), Int.toNat_natCast,
    hdrop, List.take_left' rfl, hcodec.decompress c hc]
  have hbufSize : qbootBufSize = 4096 := rfl
  rw [if_neg (by rw [hbufSize]; exact Nat.not_lt.2 hc.2), if_neg (Nat.ne_of_gt hc.1)]
  have hrest : (block compress c ++ bs).drop ((compress c).length + 4) = bs :=
    List.drop_left' hlen
  rw [hrest]

/-- Bytes behind the last block from which no block is taken. -/
def Quiet (decompress : List UInt8 → List UInt8) (junk : List UInt8) : Prop :=
  ∀ bs, bs <+: junk → ∀ left, drain decompress (left + 1) bs = ⟨[], [], .more bs⟩

/-- Draining takes the complete blocks and keeps the rest. -/
theorem drain_spec (hcodec : Inverts compress decompress outBuf) (hbuf : outBuf < 2147483643)
    {cs : List (List UInt8)} (hcs : ∀ c ∈ cs, IsChunk c) {bs t junk : List UInt8}
    (hjunk : Quiet decompress junk) (hbs : bs ++ t = cs.flatMap (block compress) ++ junk) {left : ℕ}
    (hleft : bs.length < left) :
    ∃ done todo r, cs = done ++ todo ∧ bs = done.flatMap (block compress) ++ r ∧
      (∀ c ∈ todo.head?, r.length < (block compress c).length) ∧
      drain decompress left bs = ⟨done, [], .more r⟩ := by
  induction cs generalizing bs left with
  | nil =>
    obtain ⟨left, rfl⟩ : ∃ k, left = k + 1 := ⟨left - 1, by omega⟩
    refine ⟨[], [], bs, rfl, rfl, fun c hc => ?_, hjunk bs ⟨t, hbs⟩ left⟩
    cases hc
  | cons c cs ih =>
    obtain ⟨left, rfl⟩ : ∃ k, left = k + 1 := ⟨left - 1, by omega⟩
    have hc := hcs c List.mem_cons_self
    rw [List.flatMap_cons, List.append_assoc] at hbs
    rcases Nat.lt_or_ge bs.length (block compress c).length with hlt | hge
    · refine ⟨[], c :: cs, bs, rfl, rfl, fun c' hc' => ?_, drain_incomplete hcodec hbuf hc hbs hlt _⟩
      obtain rfl := Option.some.inj hc'
      exact hlt
    · -- the first block is complete
      obtain ⟨bs', rfl⟩ : ∃ bs', bs = block compress c ++ bs' := by
        refine ⟨bs.drop (block compress c).length, ?_⟩
        have htake : bs.take (block compress c).length = block compress c := by
          have := congrArg (List.take (block compress c).length) hbs
          rwa [List.take_append_of_le_length hge, List.take_left' rfl] at this
        conv_lhs => rw [← List.take_append_drop (block compress c).length bs, htake]
      rw [List.append_assoc, List.append_cancel_left_eq] at hbs
      have hlen := block_length compress c
      rw [List.length_append] at hleft
      obtain ⟨done, todo, r, rfl, rfl, hr, hdrain⟩ :=
        ih (fun c' hc' => hcs c' (List.mem_cons_of_mem _ hc')) hbs (by omega : bs'.length < left)
      refine ⟨c :: done, todo, r, rfl, ?_, hr, ?_⟩
      · rw [List.flatMap_cons, List.append_assoc]
      · rw [drain_complete hcodec hbuf hc, hdrain]
        rfl

/-- The lengths of the blocks of chunks. -/
def blockLens (compress : List UInt8 → List UInt8) (cs : List (List UInt8)) : List ℕ :=
  cs.map fun c => (block compress c).length

theorem blockLens_sum (compress : List UInt8 → List UInt8) (cs : List (List UInt8)) :
    (blockLens compress cs).sum = (cs.flatMap (block compress)).length := by
  induction cs with
  | nil => rfl
  | cons c cs ih =>
    rw [blockLens, List.map_cons, List.sum_cons, List.flatMap_cons, List.length_append, ← ih,
      blockLens]

/-- A residue that is shorter than the next block is its own residue. -/
theorem residueAt_of_lt {cs : List (List UInt8)} {x : ℕ}
    (h : ∀ c ∈ cs.head?, x < (block compress c).length) : residueAt (blockLens compress cs) x = x := by
  cases cs with
  | nil => rfl
  | cons c cs =>
    have hlt := h c rfl
    rw [blockLens, List.map_cons, residueAt, if_neg (by omega)]

/-- The driven decoder puts out the whole file exactly when no read overruns the buffer; otherwise it
stops at the first one that does. -/
theorem framedDecoder_drive (hcodec : Inverts compress decompress outBuf)
    (hbuf : outBuf < 2147483643) {cs : List (List UInt8)} (hcs : ∀ c ∈ cs, IsChunk c)
    {a : (framedDecoder decompress).State} {r rest junk : List UInt8} (ha : a = r)
    (hjunk : Quiet decompress junk) (hr : r ++ rest = cs.flatMap (block compress) ++ junk)
    (hhead : ∀ c ∈ cs.head?, r.length < (block compress c).length) {rawSize pos avail : ℕ}
    (hpos : pos + cs.flatten.length = rawSize) (havail : rest.length ≤ avail)
    (hlt : rawSize < 4294967296) (hfuel : rest.length + 2 ≤ fuel) {T : Trace}
    (hT : T = (framedDecoder decompress).drive destPolicy rawSize fuel a pos avail rest) :
    (BlocksFit (blockLens compress cs) r.length rest.length →
      T.fin = .reached ∧ T.out = cs.flatten ∧ T.flushes = [] ∧ ∀ bs ∈ T.puts, bs ≠ []) ∧
    (¬ BlocksFit (blockLens compress cs) r.length rest.length → T.fin = .stop .undefined) := by
  have hpos1024 : 0 < qbootCmprsReadSize := Nat.succ_pos _
  induction fuel generalizing cs a r rest pos avail T with
  | zero => omega
  | succ fuel ih =>
    cases hcases : cs with
    | nil =>
      subst hcases
      rw [Decoder.drive_reached (by rw [← hpos]; exact Nat.le_refl _)] at hT
      subst hT
      refine ⟨fun _ => ⟨rfl, rfl, rfl, fun bs hbs => (List.not_mem_nil hbs).elim⟩, fun hnot => ?_⟩
      refine absurd (fun k hk => ?_) hnot
      have hzero : (blockLens compress []).sum = 0 := rfl
      omega
    | cons c ts =>
    have hc := hcs c (hcases ▸ List.mem_cons_self)
    have hblock := block_length compress c
    have hheadc := hhead c (by rw [hcases]; rfl)
    have hflat : (cs.flatMap (block compress)).length =
        (block compress c).length + (ts.flatMap (block compress)).length := by
      rw [hcases, List.flatMap_cons, List.length_append]
    have hcflat : cs.flatten.length = c.length + ts.flatten.length := by
      rw [hcases, List.flatten_cons, List.length_append]
    rw [← hcases]
    have hlens := congrArg List.length hr
    rw [List.length_append, List.length_append] at hlens
    have hcpos := hc.1
    have htake : (rest.take qbootCmprsReadSize).length = min qbootCmprsReadSize rest.length :=
      List.length_take
    have hsum := blockLens_sum compress cs
    rw [Decoder.drive_piece (by omega) (by omega)] at hT
    by_cases hover : qbootCmprsBufSize < r.length + (rest.take qbootCmprsReadSize).length
    · -- the read overruns the buffer
      have hfeed : (framedDecoder decompress).feed a (rest.take qbootCmprsReadSize) =
          ⟨[], [], .stop .undefined⟩ := by
        rw [ha]
        exact framedDecoder_overrun hover
      rw [hfeed] at hT
      subst hT
      refine ⟨fun hfit => ?_, fun _ => rfl⟩
      have h₀ := hfit 0 (by rw [Nat.mul_zero]; omega)
      rw [Nat.mul_zero, Nat.add_zero, Nat.sub_zero, residueAt_of_lt hhead] at h₀
      omega
    have hpiece : (r ++ rest.take qbootCmprsReadSize) ++ rest.drop qbootCmprsReadSize =
        cs.flatMap (block compress) ++ junk := by
      rw [List.append_assoc, List.take_append_drop, hr]
    have hleft : (r ++ rest.take qbootCmprsReadSize).length <
        r.length + (rest.take qbootCmprsReadSize).length + 1 := by
      rw [List.length_append]
      omega
    obtain ⟨done, todo, r', hdone, hr', hhead', hdrain⟩ :=
      drain_spec hcodec hbuf hcs hjunk hpiece hleft
    have hfeed : ∃ a' : (framedDecoder decompress).State, a' = r' ∧
        (framedDecoder decompress).feed a (rest.take qbootCmprsReadSize) =
          ⟨done, [], .more a'⟩ := by
      refine ⟨r', rfl, ?_⟩
      rw [ha]
      exact (framedDecoder_feed (by omega)).trans hdrain
    obtain ⟨a', ha', hfeed⟩ := hfeed
    have hrest' : r' ++ rest.drop qbootCmprsReadSize = todo.flatMap (block compress) ++ junk := by
      rw [hr', hdone, List.flatMap_append, List.append_assoc, List.append_assoc,
        List.append_cancel_left_eq] at hpiece
      exact hpiece
    have hdrop : (rest.drop qbootCmprsReadSize).length = rest.length - qbootCmprsReadSize :=
      List.length_drop
    have hrLen := congrArg List.length hr'
    rw [List.length_append, List.length_append] at hrLen
    have hrestLen := congrArg List.length hrest'
    rw [List.length_append, List.length_append] at hrestLen
    -- a last read completes all blocks
    have hlast : rest.length < qbootCmprsReadSize → todo = [] := by
      intro hshort
      by_contra hne
      obtain ⟨c', ts', rfl⟩ := List.exists_cons_of_ne_nil hne
      have hlt' := hhead' c' rfl
      rw [List.flatMap_cons, List.length_append] at hrestLen
      omega
    have hbytes : destPolicy.chunkBytes (rawSize - pos) (⟨done, [], .more a'⟩ : Reply _) =
        done.flatten := List.flatMap_id
    have htail : destPolicy.tailBytes (rawSize - pos) (⟨done, [], .more a'⟩ : Reply _) = [] := rfl
    have hflatten : cs.flatten.length = done.flatten.length + todo.flatten.length := by
      rw [hdone, List.flatten_append, List.length_append]
    rw [hfeed] at hT
    dsimp only at hT
    rw [hbytes, htail, List.append_nil, u32_of_lt (by omega)] at hT
    generalize hT' : (framedDecoder decompress).drive _ _ _ _ _ _ _ = T' at hT
    obtain ⟨hyes, hno⟩ := ih (fun c' hc' => hcs c' (hdone ▸ List.mem_append_right _ hc')) ha' hrest'
      hhead' (by omega) (by omega) (by omega) hT'.symm
    -- the reads from here on are those behind this one
    have hstep : BlocksFit (blockLens compress cs) r.length rest.length ↔
        r.length + min qbootCmprsReadSize rest.length ≤ qbootCmprsBufSize ∧
          BlocksFit (blockLens compress todo) r'.length (rest.length - qbootCmprsReadSize) := by
      have hx := residueAt_of_lt hhead
      have hdoneSum := blockLens_sum compress done
      have happ : blockLens compress cs = blockLens compress done ++ blockLens compress todo := by
        rw [hdone, blockLens, List.map_append]
        rfl
      rw [happ] at hx hsum ⊢
      refine blocksFit_step hx (by omega) (by omega) fun hshort => ?_
      rw [hlast hshort]
      rfl
    rw [hstep, hdrop.symm]
    subst hT
    refine ⟨fun ⟨_, hfit⟩ => ?_, fun hnot => ?_⟩
    · obtain ⟨hfin, hout, hflushes, hputs⟩ := hyes hfit
      refine ⟨hfin, ?_, hflushes, fun bs hbs => ?_⟩
      · rw [Trace.after_out, hbytes, htail, List.append_nil, hout, hdone, List.flatten_append]
      · rw [Trace.after_puts] at hbs
        rcases List.mem_append.1 hbs with hbs | hbs
        · obtain ⟨c', hc', rfl⟩ := List.mem_map.1 hbs
          have hpos' := (hcs c' (hdone ▸ List.mem_append_left _ hc')).1
          exact List.length_pos_iff.1 hpos'
        · exact hputs bs hbs
    · refine hno fun hfit => hnot ⟨?_, hfit⟩
      omega

theorem quiet_nil : Quiet decompress [] := by
  intro bs hbs left
  rw [List.prefix_nil] at hbs
  subst hbs
  rw [drain]
  exact if_pos (Nat.succ_pos _)

/-- The padding of an encrypted package reads as the length of a block that is far from complete. -/
theorem quiet_padding {n : ℕ} (hpos : 0 < n) (h16 : n ≤ 16) :
    Quiet decompress (List.replicate n (UInt8.ofNat n)) := by
  intro bs hbs left
  have hk : bs = List.replicate (min bs.length n) (UInt8.ofNat n) := by
    rw [← List.take_replicate]
    exact List.prefix_iff_eq_take.1 hbs
  have hle := hbs.length_le
  rw [List.length_replicate] at hle
  generalize hkdef : min bs.length n = k at hk
  subst hk
  have h4 : blockHdrSize = 4 := rfl
  rw [List.length_replicate] at hle
  rw [drain, List.length_replicate, h4]
  by_cases hshort : k < 4
  · rw [if_pos hshort]
  rw [if_neg hshort]
  have hbyte : ∀ i < k, byteAt (List.replicate k (UInt8.ofNat n)) i = n := by
    intro i hi
    rw [byteAt, List.getD_eq_getElem _ _ (by rw [List.length_replicate]; exact hi),
      List.getElem_replicate, UInt8.toNat_ofNat']
    omega
  have hsize : be32 (List.replicate k (UInt8.ofNat n)) 0 = 16843009 * n := by
    rw [be32, hbyte _ (by omega), hbyte _ (by omega), hbyte _ (by omega), hbyte _ (by omega)]
    omega
  have hmax : intMax = 2147483647 := rfl
  rw [hsize, toInt32_of_lt (by omega), hmax]
  dsimp only
  rw [if_neg (by omega), if_neg (by omega), if_pos (by omega)]

end Drain

/-! ## The packages -/

/-- The framed codecs. -/
inductive FramedCodec where
  | quicklz
  | fastlz
deriving DecidableEq, Repr

namespace FramedCodec

def compression : FramedCodec → Compression
  | quicklz => .quicklz
  | fastlz => .fastlz

def compress (K : PackCodecs) : FramedCodec → List UInt8 → List UInt8
  | quicklz => K.qlzCompress
  | fastlz => K.fastlzCompress

def decompress (P : Codecs) : FramedCodec → List UInt8 → List UInt8
  | quicklz => P.qlzDecompress
  | fastlz => fun block => P.fastlzDecompress block qbootBufSize

/-- The size of the tool's output buffer for a chunk. -/
def outBuf : FramedCodec → ℕ
  | quicklz => 4096 + 400
  | fastlz => 4096 + 270

end FramedCodec

variable {f : FramedCodec}

/-- The release of a framed package: it succeeds, in particular no read overruns `cmprs_buf`, and the
target holds the file. -/
def FramedRoundTrip (L : Layout) (fuel : ℕ) (env : Env) (dst : FalPartition)
    (dstName srcName : PartName) (file : List UInt8) (ram : Ram P) (s : Board) : Prop :=
  ∃ ram' s', (qbtFwRelease L fuel dstName srcName ram).run (world L env) s = .done (ram', true) s' ∧
    dst.bytes s'.flash 0 file.length = file

/-- The run of the decoder on a framed package. -/
theorem framed_drive (hinv : encrypt = true → CipherInverts P K)
    (hcodec : Inverts (f.compress K) (f.decompress P) f.outBuf)
    (h : Packed L dst src dstName srcName K f.compression encrypt pi file ram s.flash)
    (hfuel : (toolBody K f.compression encrypt file).length + 2 ≤ fuel) {T : Trace}
    (hT : T = (framedDecoder (f.decompress P)).drive destPolicy
      (toolHdr K f.compression encrypt pi file).info.rawSize fuel
      (framedDecoder (f.decompress P)).init 0 (src.len - fwInfoSize)
      (src.plain P s.flash (toolHdr K f.compression encrypt pi file).info)) :
    (BlocksFit (blockLens (f.compress K) (fileChunks file.length file)) 0
        (toolBody K f.compression encrypt file).length →
      T.fin = .reached ∧ T.out = file ∧ T.flushes = [] ∧ ∀ bs ∈ T.puts, bs ≠ []) ∧
    (¬ BlocksFit (blockLens (f.compress K) (fileChunks file.length file)) 0
        (toolBody K f.compression encrypt file).length → T.fin = .stop .undefined) := by
  have hflatten := fileChunks_flatten (Nat.le_refl file.length)
  have hcs := fileChunks_isChunk file.length file
  have hlen := L.len_lt h.src_mem
  have hdlen := L.len_lt h.dst_mem
  have hraw := h.releasable.raw
  have hbody := h.fits
  have hbuf : f.outBuf < 2147483643 := by cases f <;> decide
  have hcomp : compressFile K file f.compression =
      (fileChunks file.length file).flatMap (block (f.compress K)) := by
    cases f <;> exact compressChunks_eq _ _ _
  obtain ⟨junk, hquiet, hjunk, hplainLen⟩ : ∃ junk, Quiet (f.decompress P) junk ∧
      src.plain P s.flash (toolHdr K f.compression encrypt pi file).info =
        (fileChunks file.length file).flatMap (block (f.compress K)) ++ junk ∧
      (src.plain P s.flash (toolHdr K f.compression encrypt pi file).info).length =
        (toolBody K f.compression encrypt file).length := by
    rw [h.plain hinv, ← hcomp]
    cases encrypt with
    | false => exact ⟨[], quiet_nil, (List.append_nil _).symm, rfl⟩
    | true =>
      refine ⟨_, quiet_padding (by omega) (by omega), rfl, ?_⟩
      rw [if_pos rfl, padded_length, toolBody_aes_length]
  have hinit : (framedDecoder (f.decompress P)).init = ([] : List UInt8) := rfl
  have hhead : ∀ c ∈ (fileChunks file.length file).head?,
      ([] : List UInt8).length < (block (f.compress K) c).length := by
    intro c _
    rw [block_length]
    exact Nat.succ_pos _
  rw [h.rawSize] at hT hraw
  have hr : [] ++ src.plain P s.flash (toolHdr K f.compression encrypt pi file).info =
      (fileChunks file.length file).flatMap (block (f.compress K)) ++ junk := hjunk
  have hdrive := framedDecoder_drive hcodec hbuf hcs hinit hquiet hr hhead
    (by rw [hflatten, Nat.zero_add]) (by omega) (by omega) (by omega) hT
  rwa [hflatten, hplainLen] at hdrive

/-- Where a read would overrun `cmprs_buf` the release has no defined result. -/
theorem not_framedRoundTrip (hcalm : Calm env) (hinv : encrypt = true → CipherInverts P K)
    (hcodec : Inverts (f.compress K) (f.decompress P) f.outBuf)
    (h : Packed L dst src dstName srcName K f.compression encrypt pi file ram s.flash)
    (hfuel : (toolBody K f.compression encrypt file).length + 2 ≤ fuel)
    (hover : ¬ BlocksFit (blockLens (f.compress K) (fileChunks file.length file)) 0
      (toolBody K f.compression encrypt file).length) :
    ¬ FramedRoundTrip L fuel env dst dstName srcName file ram s := by
  rintro ⟨ram', s', hrun, -⟩
  have hd : decoderOf P fuel (toolHdr K f.compression encrypt pi file).info.cmprsType =
      some (framedDecoder (f.decompress P)) := by
    rw [toolHdr_cmprsType]
    cases f <;> rfl
  have hfin := (framed_drive hinv hcodec h hfuel rfl).2 hover
  have hrel : (qbtFwRelease L fuel dstName srcName ram).wp (world L env)
      (fun r _ => r.2 = false) (fun _ _ => True) s := by
    refine wp_qbtFwRelease h.releasable (hcalm.readsQuiet src) (fun _ _ => trivial) hd rfl
      (fun _ _ t _ => ?_) (fun _ _ _ => rfl) (fun _ _ _ => rfl) (fun _ _ _ => rfl)
      (fun _ _ _ _ => rfl) (fun hreached _ _ _ _ => ?_) fun _ _ _ => trivial
    · rw [hcalm]
      exact Fault.none_quiet
    · rw [hfin] at hreached
      cases hreached
  rw [Prog.wp_iff_run, hrun] at hrel
  cases hrel

/-- The release of a framed package restores the file exactly when every read fits behind the
residue of the blocks before it. -/
theorem framedRoundTrip_iff (hcalm : Calm env) (hinv : encrypt = true → CipherInverts P K)
    (hcodec : Inverts (f.compress K) (f.decompress P) f.outBuf)
    (h : Packed L dst src dstName srcName K f.compression encrypt pi file ram s.flash)
    (hfuel : (toolBody K f.compression encrypt file).length + 2 ≤ fuel) :
    FramedRoundTrip L fuel env dst dstName srcName file ram s ↔
      BlocksFit (blockLens (f.compress K) (fileChunks file.length file)) 0
        (toolBody K f.compression encrypt file).length := by
  refine ⟨fun hround => ?_, fun hfit => ?_⟩
  · by_contra hover
    exact not_framedRoundTrip hcalm hinv hcodec h hfuel hover hround
  have hdst := h.dst_mem
  have hraw := h.rawSize
  have hpos := h.file_pos
  have hfits := h.file_fits
  have hd : decoderOf P fuel (toolHdr K f.compression encrypt pi file).info.cmprsType =
      some (framedDecoder (f.decompress P)) := by
    rw [toolHdr_cmprsType]
    cases f <;> rfl
  generalize hT : (framedDecoder (f.decompress P)).drive destPolicy
    (toolHdr K f.compression encrypt pi file).info.rawSize fuel
    (framedDecoder (f.decompress P)).init 0 (src.len - fwInfoSize)
    (src.plain P s.flash (toolHdr K f.compression encrypt pi file).info) = T
  obtain ⟨hfin, hout, -, hputs⟩ := (framed_drive hinv hcodec h hfuel hT.symm).1 hfit
  have hstop := le_eraseStop L dst file.length
  have hrel : (qbtFwRelease L fuel dstName srcName ram).wp (world L env)
      (fun r s' => r.2 = true ∧ Released L dst (toolHdr K f.compression encrypt pi file).info s.flash
        file s'.flash) (fun _ _ => False) s := by
    refine wp_qbtFwRelease_clean hcalm h.releasable (by omega) hd hT.symm hfin hputs ?_ ?_
      fun ram' s' _ hr => ⟨rfl, ?_⟩
    · rw [hout]
      exact hfits
    · rw [hout, hraw]
      exact hstop
    · rwa [hout] at hr
  obtain ⟨⟨ram', ok⟩, s', hrun, rfl, hrel⟩ := Prog.run_done_of_wp hrel
  refine ⟨ram', s', hrun, ?_⟩
  rw [hrel.bytes hdst (Nat.le_refl _) hfits (by rw [hraw]; exact hstop), List.take_length]

/-! ## Incompressible files -/

/-- FastLZ on chunks it cannot compress: a whole chunk grows to 4224 bytes. -/
def growingCompress (chunk : List UInt8) : List UInt8 :=
  if chunk.length = 4096 then chunk ++ List.replicate 128 0 else chunk

/-- The tool with that codec. -/
def PackCodecs.growing : PackCodecs := { PackCodecs.stored with fastlzCompress := growingCompress }

theorem inverts_growing : Inverts (FramedCodec.fastlz.compress .growing)
    (FramedCodec.fastlz.decompress Codecs.stored) FramedCodec.fastlz.outBuf := by
  have hcompress : ∀ c, FramedCodec.fastlz.compress .growing c = growingCompress c := fun _ => rfl
  have hout : FramedCodec.fastlz.outBuf = 4366 := rfl
  refine ⟨fun c hc => ?_, fun c hc => ?_, fun c hc => ?_⟩
  · show (growingCompress c).take 4096 = c
    rw [growingCompress]
    split
    · rename_i hlen
      exact List.take_left' hlen
    · exact List.take_of_length_le hc.2
  · have hpos := hc.1
    rw [hcompress, growingCompress]
    split
    · rw [List.length_append]
      omega
    · exact hpos
  · have hle := hc.2
    rw [hcompress, hout, growingCompress]
    split
    · rw [List.length_append, List.length_replicate]
      omega
    · omega

/-- Nine chunks of which none is compressible. -/
def incompressibleFile : List UInt8 := List.replicate (4096 * 9) 0

theorem fileChunks_cons {file : List UInt8} (h : 0 < file.length) (left : ℕ) :
    fileChunks (left + 1) file = file.take 4096 :: fileChunks left (file.drop 4096) := by
  cases file with
  | nil => exact absurd h (Nat.lt_irrefl 0)
  | cons b bs => rfl

theorem growing_blockLens {n left : ℕ} (h : n ≤ left) :
    blockLens growingCompress (fileChunks left (List.replicate (4096 * n) 0)) =
      List.replicate n 4228 := by
  induction n generalizing left with
  | zero => cases left <;> rfl
  | succ n ih =>
    obtain ⟨left, rfl⟩ : ∃ k, left = k + 1 := ⟨left - 1, by omega⟩
    have hpos : 0 < (List.replicate (4096 * (n + 1)) (0 : UInt8)).length := by
      rw [List.length_replicate]
      omega
    have htake : min 4096 (4096 * (n + 1)) = 4096 := by omega
    have hdrop : 4096 * (n + 1) - 4096 = 4096 * n := by omega
    have hfull : (List.replicate 4096 (0 : UInt8)).length = 4096 := List.length_replicate
    rw [fileChunks_cons hpos, List.take_replicate, List.drop_replicate, htake, hdrop, blockLens,
      List.map_cons, block_length, growingCompress, if_pos hfull, List.length_append, hfull,
      List.length_replicate, List.replicate_succ]
    exact congrArg _ (ih (by omega))

theorem incompressibleFile_length : incompressibleFile.length = 36864 := List.length_replicate

theorem incompressible_blockLens :
    blockLens growingCompress (fileChunks incompressibleFile.length incompressibleFile) =
      List.replicate 9 4228 := by
  refine growing_blockLens ?_
  rw [incompressibleFile_length]
  omega

theorem incompressible_body :
    (toolBody .growing .fastlz false incompressibleFile).length = 38052 := by
  have hbody : ∀ file, toolBody .growing .fastlz false file =
      compressChunks growingCompress file.length file := fun _ => rfl
  rw [hbody, compressChunks_eq, ← blockLens_sum, incompressible_blockLens]
  rfl

theorem cipherInverts_growing : CipherInverts Codecs.stored PackCodecs.growing :=
  cipherInverts_stored

/-- A small FastLZ package. -/
theorem framedRoundTrip_vectorWords :
    FramedRoundTrip falPartTable 100 calmEnv appPart (.lit qbootAppPartName)
      (.lit qbootDownloadPartName) vectorWords
      (headerRead Codecs.stored (toolHdr .growing .fastlz true ⟨[], [], [], 0, 0⟩ vectorWords))
      (Board.powerUp (downloaded .growing .fastlz true ⟨[], [], [], 0, 0⟩ vectorWords)) := by
  refine (framedRoundTrip_iff (f := .fastlz) (fun _ _ => rfl) (fun _ => cipherInverts_growing)
    inverts_growing (packed_downloaded (by decide) (by decide) (by decide)) (by decide)).2 ?_
  intro k hk
  have hsum : (blockLens (FramedCodec.fastlz.compress .growing)
      (fileChunks vectorWords.length vectorWords)).sum = 12 := by decide
  have h1024 : qbootCmprsReadSize = 1024 := rfl
  obtain rfl : k = 0 := by
    rw [hsum, h1024] at hk
    omega
  decide

/-- The read at byte 33792 of the package meets a residue of 4196 bytes. -/
theorem incompressibleFile_overruns :
    ¬ FramedRoundTrip falPartTable 40000 calmEnv appPart (.lit qbootAppPartName)
      (.lit qbootDownloadPartName) incompressibleFile
      (headerRead Codecs.stored
        (toolHdr .growing .fastlz false ⟨[], [], [], 0, 0⟩ incompressibleFile))
      (Board.powerUp (downloaded .growing .fastlz false ⟨[], [], [], 0, 0⟩ incompressibleFile)) := by
  have hlen := incompressibleFile_length
  have hbody := incompressible_body
  refine not_framedRoundTrip (f := .fastlz) (fun _ _ => rfl) (fun _ => cipherInverts_growing)
    inverts_growing (packed_downloaded (by omega) (by omega) ?_) ?_ fun hfit => ?_
  · show (toolBody .growing .fastlz false incompressibleFile).length ≤ 1048480
    omega
  · show (toolBody .growing .fastlz false incompressibleFile).length + 2 ≤ 40000
    omega
  · have hread : BlocksFit (List.replicate 9 4228) 0 38052 := by
      rw [← hbody, ← incompressible_blockLens]
      exact hfit
    exact absurd (hread 33 (by decide)) (by decide)

end RtThreadOta
