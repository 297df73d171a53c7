import RtThreadOta.Fal.PartitionSpec
import RtThreadOta.Qboot.Arms

/-!
# The release loop against the driven decoder

`wp_pkgLoop` says that the loop of `qbt_fw_release` and `qbt_app_crc_check` does what
`Decoder.drive` does with the plaintext of the package: whatever holds of the decoded bytes that
`drive` puts out, holds of the sink at the end. What a sink has to keep for this is `SinkSpec`.
-/

namespace RtThreadOta

open Interaction Words

variable {L : Layout} {P : Codecs} {τ : Type} {env : Env} {src : FalPartition} {ram : Ram P}

/-! ## Reading and decrypting a piece -/

/-- The plaintext of a body of whole AES blocks; a body that is not encrypted is its plaintext. -/
def plaintext (P : Codecs) (cryptType : ℕ) (body : List UInt8) : List UInt8 :=
  if cryptType = qbootAlgoCryptNone then body
  else (Cbc.decrypt (P.aesDec qbootAesKey) 16 (body.length / 16) qbootAesIv body).1

/-- What is left of a body decrypts to `plain`, going on from the chaining value in memory. -/
inductive Decrypts (cryptType : ℕ) (ram : Ram P) (body : List UInt8) : List UInt8 → Prop where
  | none (h : cryptType = qbootAlgoCryptNone) : Decrypts cryptType ram body body
  | aes (h : cryptType = qbootAlgoCryptAes) (hdvd : 16 ∣ body.length)
      (hiv : ram.aesIv.length = 16) :
      Decrypts cryptType ram body
        (Cbc.decrypt (P.aesDec qbootAesKey) 16 (body.length / 16) ram.aesIv body).1

theorem Decrypts.length {cryptType : ℕ} {body plain : List UInt8}
    (h : Decrypts cryptType ram body plain) : plain.length = body.length := by
  rcases h with _ | ⟨-, hdvd, hiv⟩
  · rfl
  · rw [Cbc.decrypt_fst_length (P.aesDec_length _) _ hiv (by omega)]
    omega

/-- At the start of a body. -/
theorem decrypts_plaintext {cryptType : ℕ} {ram' : Ram P} {body : List UInt8}
    (h : qbtFwDecryptInit cryptType ram = some ram')
    (hdvd : cryptType = qbootAlgoCryptAes → 16 ∣ body.length) :
    Decrypts cryptType ram' body (plaintext P cryptType body) := by
  rw [qbtFwDecryptInit] at h
  rw [plaintext]
  by_cases hnone : cryptType = qbootAlgoCryptNone
  · rw [if_pos hnone]
    exact .none hnone
  rw [if_neg hnone] at h ⊢
  by_cases haes : cryptType = qbootAlgoCryptAes
  · rw [if_pos haes] at h
    obtain rfl := Option.some.inj h
    exact .aes haes (hdvd haes) rfl
  · rw [if_neg haes] at h
    cases h

/-- Bytes stored behind the residue are loaded. -/
theorem loaded_store {off : ℕ} {piece : List UInt8} (h : off + piece.length ≤ qbootCmprsBufSize)
    (cryptBuf : Buffer qbootBufSize) (iv : List UInt8) :
    Loaded ram { ram with cmprsBuf := ram.cmprsBuf.store off piece, cryptBuf := cryptBuf, aesIv := iv }
      off piece :=
  ⟨Buffer.slice_store_append h, rfl, rfl, rfl⟩

section Read

variable {Q : Ram P × Bool → Board → Prop} {E : Option Halt → Board → Prop} {s : Board}
  {cryptType pos off : ℕ} {body plain : List UInt8}

/-- A piece within the partition and `cmprs_buf`. -/
theorem wp_qbtFwPkgRead (hp : src ∈ L.parts) (hquiet : ReadsQuiet env src)
    (hdec : Decrypts cryptType ram body plain) {n : ℕ} (hn : n ≤ body.length)
    (hmax : n ≤ qbootCmprsReadSize) (h16 : 16 ∣ body.length → 16 ∣ n)
    (hbody : src.bytes s.flash pos n = body.take n) (hfit : pos + n ≤ src.len)
    (hroom : off + n ≤ qbootCmprsBufSize) (hcut : ¬ Calm env → ∀ s', E none s')
    (h : ∀ ram' s', s'.flash = s.flash →
      s'.log = ⟨.read src.dev (src.offset + pos) n, n⟩ :: s.log →
      Loaded ram ram' off (plain.take n) → ram'.fwInfo = ram.fwInfo →
      Decrypts cryptType ram' (body.drop n) (plain.drop n) → Q (ram', true) s') :
    (qbtFwPkgRead (some src) pos off n ram cryptType).wp (world L env) Q E s := by
  have htake : (body.take n).length = n := by rw [List.length_take]; omega
  rw [qbtFwPkgRead]
  rcases hdec with hnone | ⟨haes, hdvd, hiv⟩
  · rw [if_pos hnone, Prog.wp_bind]
    refine wp_falPartitionRead hp hfit (by omega) hcut (fun s' hs' hlog => ?_)
      fun hbad => absurd hquiet hbad
    dsimp only
    rw [if_neg (by omega), hbody]
    exact h _ s' hs' hlog (loaded_store (by omega) _ _) rfl (.none hnone)
  · have hne : cryptType ≠ qbootAlgoCryptNone := by rw [haes]; decide
    rw [if_neg hne, if_pos haes, Prog.wp_bind]
    have hbuf : n ≤ qbootBufSize := Nat.le_trans hmax (by decide)
    refine wp_falPartitionRead hp hfit hbuf hcut (fun s' hs' hlog => ?_)
      fun hbad => absurd hquiet hbad
    dsimp only
    rw [if_neg (by omega), hbody]
    obtain ⟨k, rfl⟩ := h16 hdvd
    obtain ⟨j, hj⟩ : 16 ∣ (body.drop (16 * k)).length := by
      rw [List.length_drop]
      exact Nat.dvd_sub hdvd (Nat.dvd_mul_right 16 k)
    have hblocks : aesBlocks (16 * k) = k := by rw [aesBlocks]; omega
    have hstored : (ram.cryptBuf.store 0 (body.take (16 * k))).slice 0 (16 * k) =
        body.take (16 * k) := by
      have : ∀ data : List UInt8, data.length ≤ qbootBufSize →
          (ram.cryptBuf.store 0 data).slice 0 data.length = data :=
        fun data hd => Buffer.slice_store_self (by omega)
      have := this (body.take (16 * k)) (by omega)
      rwa [htake] at this
    have hsum : body.length / 16 = k + j := by
      rw [List.length_drop] at hj
      omega
    have hcbc := @Cbc.decrypt_take (P.aesDec qbootAesKey) 16 k ram.aesIv body (16 * k) (by omega)
    have hlen : (Cbc.decrypt (P.aesDec qbootAesKey) 16 k ram.aesIv body).1.length = 16 * k := by
      rw [Cbc.decrypt_fst_length (P.aesDec_length _) k hiv (by omega), Nat.mul_comm]
    have hadd := @Cbc.decrypt_add (P.aesDec qbootAesKey) 16 k j ram.aesIv body
    rw [Nat.mul_comm k 16] at hadd
    have hguard : ¬ (qbootBufSize < aesBlocks (16 * k) * 16 ∨
        qbootCmprsBufSize < off + aesBlocks (16 * k) * 16) := by
      rw [hblocks]
      omega
    rw [Prog.wp_bind, qbtAesDecrypt, if_neg hguard]
    simp only [storeRead, hblocks, Nat.mul_comm k 16, hstored, hcbc, Prog.wp_ret]
    rw [hsum, hadd] at h
    refine h _ s' hs' hlog ?_ rfl ?_
    · rw [List.take_left' hlen]
      exact loaded_store (by omega) _ _
    · rw [List.drop_left' hlen]
      have hjlen : (body.drop (16 * k)).length / 16 = j := by omega
      have hiv' : ({ ram with
          cryptBuf := ram.cryptBuf.store 0 (body.take (16 * k))
          cmprsBuf := ram.cmprsBuf.store off (Cbc.decrypt (P.aesDec qbootAesKey) 16 k ram.aesIv body).1
          aesIv := (Cbc.decrypt (P.aesDec qbootAesKey) 16 k ram.aesIv body).2 } :
            Ram P).aesIv.length = 16 := Cbc.decrypt_snd_length k hiv (by omega)
      have := Decrypts.aes haes ⟨j, hj⟩ hiv'
      rwa [hjlen] at this

/-- A piece that does not fit into `cmprs_buf` overruns it. -/
theorem wp_qbtFwPkgRead_overrun (hp : src ∈ L.parts) (hquiet : ReadsQuiet env src)
    (hdec : Decrypts cryptType ram body plain) {n : ℕ} (hmax : n ≤ qbootCmprsReadSize)
    (hfit : pos + n ≤ src.len) (hoff : off ≤ qbootCmprsBufSize)
    (hroom : qbootCmprsBufSize < off + n) (hcut : ¬ Calm env → ∀ s', E none s')
    (h : ∀ s', E (some .undefined) s') :
    (qbtFwPkgRead (some src) pos off n ram cryptType).wp (world L env) Q E s := by
  have hlen := L.len_lt hp
  rw [qbtFwPkgRead]
  rcases hdec with hnone | ⟨haes, -, -⟩
  · rw [if_pos hnone, falPartitionRead, u32_of_lt (by omega), if_neg (by omega),
      if_pos (by omega)]
    exact h s
  · have hne : cryptType ≠ qbootAlgoCryptNone := by rw [haes]; decide
    rw [if_neg hne, if_pos haes, Prog.wp_bind]
    have hbuf : n ≤ qbootBufSize := Nat.le_trans hmax (by decide)
    refine wp_falPartitionRead hp hfit hbuf hcut (fun s' hs' hlog => ?_)
      fun hbad => absurd hquiet hbad
    dsimp only
    have hguard : qbootBufSize < aesBlocks n * 16 ∨ qbootCmprsBufSize < off + aesBlocks n * 16 := by
      rw [aesBlocks]
      omega
    rw [if_neg (by omega), Prog.wp_bind, qbtAesDecrypt, if_pos hguard]
    exact h s'

/-- A piece past the end of the partition is refused. -/
theorem wp_qbtFwPkgRead_out (hdec : Decrypts cryptType ram body plain) {n : ℕ}
    (hout : src.len < pos + n) (hlt : pos + n < 4294967296) (h : Q (ram, false) s) :
    (qbtFwPkgRead (some src) pos off n ram cryptType).wp (world L env) Q E s := by
  rw [qbtFwPkgRead]
  rcases hdec with hnone | ⟨haes, -, -⟩
  · rw [if_pos hnone, Prog.wp_bind, falPartitionRead_out hout hlt]
    exact h
  · have hne : cryptType ≠ qbootAlgoCryptNone := by rw [haes]; decide
    rw [if_neg hne, if_pos haes, Prog.wp_bind, falPartitionRead_out hout hlt]
    exact h

end Read

/-! ## Sinks -/

/-- What holds of a sink, the position and the bytes that went in. -/
abbrev SinkInv (τ : Type) := τ → (pos : ℕ) → (X : List UInt8) → Board → Prop

/-- What a sink has to keep: `Inv` between calls, `Mid` within one, where `Refused X bs s` says why
the chunk `bs` behind the bytes `X` was not taken, and flushes happen only where `FlushAt` allows
them. The sink of a call depends on the position `pos` the call starts at, which the call may pass on
as another one. -/
structure SinkSpec (L : Layout) (env : Env) (sinkOf : ℕ → Sink τ) (start : ℕ → ℕ) (π : Policy)
    (rawSize unit : ℕ) (Inv Mid : SinkInv τ) (Refused : List UInt8 → List UInt8 → Board → Prop)
    (FlushAt : ℕ → Prop) (E : Option Halt → Board → Prop) : Prop where
  putLen_zero : ∀ pos, (sinkOf pos).putLen 0 = 0
  putLen : ∀ pos bs, (sinkOf pos).putLen bs.length = (π.put (rawSize - pos) bs).length
  flushLen : ∀ pos (bs : List UInt8), bs.length < gzipRemainBufSize →
    (sinkOf pos).flushLen bs.length = (π.flush (rawSize - pos) bs).length
  keepLen : ∀ pos n, (sinkOf pos).keepLen n = n ∨ rawSize - pos ≤ (sinkOf pos).flushLen n
  enter : ∀ {st pos X s}, Inv st pos X s → pos < rawSize → Mid st pos X s
  leave : ∀ {st pos X s}, Mid st pos X s → Inv st pos X s
  wrap : ∀ {st pos X s}, Inv st pos X s → Inv st (u32 pos) X s
  put : ∀ {st X s pos writeLen bs}, Mid st (pos + writeLen) X s → pos < rawSize →
    unit ∣ bs.length → bs.length ≤ qbootBufSize →
    ((sinkOf pos).put st (start pos + writeLen) bs).wp (world L env) (fun o s' => match o with
      | none => Refused X (π.put (rawSize - pos) bs) s'
      | some st' => Mid st' (pos + writeLen + (π.put (rawSize - pos) bs).length)
          (X ++ π.put (rawSize - pos) bs) s') E s
  flush : ∀ {st X s pos writeLen bs}, Mid st (pos + writeLen) X s → pos < rawSize →
    unit = gzipRemainBufSize → bs.length < gzipRemainBufSize → FlushAt (pos + writeLen) →
    ((sinkOf pos).flush st (start pos + writeLen) bs).wp (world L env)
      (fun st' s' => Inv st' (pos + writeLen + (π.flush (rawSize - pos) bs).length)
        (X ++ π.flush (rawSize - pos) bs) s') E s

/-- Some chunk behind the first of the bytes `out` was refused. -/
def RefusedIn (Refused : List UInt8 → List UInt8 → Board → Prop) (puts : List (List UInt8))
    (out : List UInt8) (s : Board) : Prop :=
  ∃ X bs, bs ∈ puts ∧ X ++ bs <+: out ∧ Refused X bs s

section Deliver

variable {sinkOf : ℕ → Sink τ} {start : ℕ → ℕ} {π : Policy} {rawSize unit : ℕ}
  {Inv Mid : SinkInv τ} {Refused : List UInt8 → List UInt8 → Board → Prop}
  {FlushAt : ℕ → Prop} {E : Option Halt → Board → Prop} {st : τ} {X : List UInt8} {s : Board}
  {pos writeLen : ℕ}

theorem wp_emit (hsink : SinkSpec L env sinkOf start π rawSize unit Inv Mid Refused FlushAt E)
    (hpos : pos < rawSize) {cs : List (List UInt8)}
    (hchunk : ∀ c ∈ cs, unit ∣ c.length ∧ c.length ≤ qbootBufSize)
    (hMid : Mid st (pos + writeLen) X s) {Q : Option (τ × ℕ) → Board → Prop}
    (hnone : ∀ s', RefusedIn Refused (cs.map (π.put (rawSize - pos)))
      (X ++ cs.flatMap (π.put (rawSize - pos))) s' → Q none s')
    (hsome : ∀ st' s', Mid st' (pos + (writeLen + (cs.flatMap (π.put (rawSize - pos))).length))
        (X ++ cs.flatMap (π.put (rawSize - pos))) s' →
      Q (some (st', writeLen + (cs.flatMap (π.put (rawSize - pos))).length)) s') :
    (emit (sinkOf pos) (start pos) cs st writeLen).wp (world L env) Q E s := by
  induction cs generalizing st X s writeLen with
  | nil =>
    refine hsome st s ?_
    rwa [List.flatMap_nil, List.append_nil]
  | cons c cs ih =>
    obtain ⟨hdvd, hle⟩ := hchunk c List.mem_cons_self
    rw [emit, Prog.wp_bind]
    refine Prog.wp_imp (hsink.put hMid hpos hdvd hle) fun o s' ho => ?_
    rw [List.flatMap_cons, ← List.append_assoc] at hnone hsome
    rcases o with _ | st'
    · refine hnone s' ⟨X, _, ?_, ?_, ho⟩
      · exact List.mem_cons_self
      · exact List.prefix_append ..
    · dsimp only at ho ⊢
      rw [hsink.putLen]
      rw [Nat.add_assoc] at ho
      refine ih (fun c' hc' => hchunk c' (List.mem_cons_of_mem _ hc')) ho
        (fun s'' hr => hnone s'' ?_) fun st'' s'' hi => ?_
      · obtain ⟨Y, bs, hmem, hpre, hr⟩ := hr
        exact ⟨Y, bs, List.mem_cons_of_mem _ hmem, hpre, hr⟩
      · have := hsome st'' s''
        rw [List.length_append, ← Nat.add_assoc writeLen] at this
        exact this hi

theorem wp_deliver (hsink : SinkSpec L env sinkOf start π rawSize unit Inv Mid Refused FlushAt E)
    (hpos : pos < rawSize) {A : Type} {r : Reply A}
    (hchunk : ∀ c ∈ r.chunks, unit ∣ c.length ∧ c.length ≤ qbootBufSize)
    (htail : r.tail ≠ [] → unit = gzipRemainBufSize ∧ r.tail.length < gzipRemainBufSize)
    (hflush : ∀ a, r.next = .more a → r.tail ≠ [] →
      FlushAt (pos + (π.chunkBytes (rawSize - pos) r).length))
    (hInv : Inv st pos X s) {Q : Option (A × τ × ℕ) → Board → Prop}
    (hrefused : ∀ s', RefusedIn Refused (r.chunks.map (π.put (rawSize - pos)))
      (X ++ π.chunkBytes (rawSize - pos) r) s' → Q none s')
    (hbad : r.next = .bad → ∀ s', Q none s')
    (hstop : ∀ h, r.next = .stop h → ∀ s', E (some h) s')
    (hmore : ∀ a, r.next = .more a → ∀ st' s',
      Inv st' (pos + (π.chunkBytes (rawSize - pos) r ++ π.tailBytes (rawSize - pos) r).length)
        (X ++ (π.chunkBytes (rawSize - pos) r ++ π.tailBytes (rawSize - pos) r)) s' →
      Q (some (a, st',
        (π.chunkBytes (rawSize - pos) r ++ π.tailBytes (rawSize - pos) r).length)) s') :
    (deliver (sinkOf pos) (start pos) r st 0).wp (world L env) Q E s := by
  rw [deliver, Prog.wp_bind]
  refine wp_emit hsink hpos hchunk (hsink.enter hInv hpos) (fun s' hr => hrefused s' hr)
    fun st' s' hi => ?_
  rw [Nat.zero_add] at hi ⊢
  cases hnext : r.next with
  | bad =>
    rw [deliverEnd, hnext]
    exact hbad hnext s'
  | stop h =>
    rw [deliverEnd, hnext]
    exact hstop h hnext s'
  | more a =>
    rw [deliverEnd, hnext]
    have hmore := hmore a hnext
    rw [Policy.tailBytes] at hmore
    dsimp only
    by_cases hnil : r.tail = []
    · rw [if_pos hnil, List.append_nil] at hmore
      rw [if_pos hnil]
      exact hmore st' s' (hsink.leave hi)
    · obtain ⟨hunit, hlt⟩ := htail hnil
      rw [if_neg hnil, ← List.append_assoc, List.length_append, ← Nat.add_assoc] at hmore
      rw [if_neg hnil, Prog.wp_bind]
      refine Prog.wp_imp (hsink.flush hi hpos hunit hlt (hflush a hnext hnil)) fun st'' s'' hi' => ?_
      rw [hsink.flushLen pos _ hlt]
      rw [Nat.add_assoc] at hmore
      have := hmore st'' s''
      rw [← Nat.add_assoc] at this
      exact this hi'

end Deliver

/-! ## The loop -/

theorem RefusedIn.mono {Refused : List UInt8 → List UInt8 → Board → Prop}
    {puts puts' : List (List UInt8)} {out out' : List UInt8} {s : Board}
    (h : RefusedIn Refused puts out s) (hputs : puts ⊆ puts') (hout : out <+: out') :
    RefusedIn Refused puts' out' s := by
  obtain ⟨X, bs, hmem, hpre, hr⟩ := h
  exact ⟨X, bs, hputs hmem, hpre.trans hout, hr⟩

theorem Decrypts.congr {cryptType : ℕ} {ram' : Ram P} {body plain : List UInt8}
    (h : Decrypts cryptType ram body plain) (hiv : ram'.aesIv = ram.aesIv) :
    Decrypts cryptType ram' body plain := by
  rcases h with hnone | ⟨haes, hdvd, hlen⟩
  · exact .none hnone
  · rw [← hiv] at hlen ⊢
    exact .aes haes hdvd hlen

/-- The length of the next read: 1024 bytes, or what is left of the package. -/
theorem readLen_of_lt {size left : ℕ} (hleft : left < 2147483648) :
    readLen size left = min size left := by
  rw [readLen, toInt32_of_lt hleft]
  split
  · rw [ofInt32_natCast (by omega)]
    omega
  · omega

theorem readLen_eq {size total rp : ℕ} (htotal : total < 2147483648)
    (hrp : rp ≤ total) : readLen size (subU32 (u32 total) rp) = min size (total - rp) := by
  rw [u32_of_lt (by omega), subU32_of_le hrp (by omega), readLen_of_lt (by omega)]

/-- An invariant of a sink that leaves the source partition as it is. -/
structure KeepsSource (src : FalPartition) (m₀ : Flash) (Inv : SinkInv τ) : Prop where
  bytes : ∀ {st pos X s a n}, Inv st pos X s → a + n ≤ src.len →
    src.bytes s.flash a n = src.bytes m₀ a n
  read : ∀ {st pos X s s' a n}, Inv st pos X s → s'.flash = s.flash →
    s'.log = ⟨.read src.dev (src.offset + a) n, n⟩ :: s.log → Inv st pos X s'

section Loop

variable {sinkOf : ℕ → Sink τ} {start : ℕ → ℕ} {π : Policy} {unit : ℕ} {info : FwInfo}
  {Inv Mid : SinkInv τ} {Refused : List UInt8 → List UInt8 → Board → Prop}
  {FlushAt : ℕ → Prop} {E : Option Halt → Board → Prop} {d : Decoder}
  {R : d.State → Ram P → ℕ → Prop} {m₀ : Flash}
  {call : τ → (pos : ℕ) → Ram P → (cmprsLen : ℕ) → Code (ArmEnd P τ)} {armFuel : ℕ}

/-- The loop puts out what the driven decoder puts out: it ends well only where driving the decoder
does, with the invariant of all bytes, and it halts only where driving the decoder stops. -/
theorem wp_pkgLoop
    (hsink : SinkSpec L env sinkOf start π info.rawSize unit Inv Mid Refused FlushAt E)
    (href : ∀ pos, Refines (sinkOf pos) armFuel info.cmprsType d R) (hlaw : d.Lawful unit)
    (hcall : ∀ st pos ram cmprsLen, call st pos ram cmprsLen =
      decompressArm armFuel (sinkOf pos) info.cmprsType ram cmprsLen st (start pos))
    (hsrc : KeepsSource src m₀ Inv) (hp : src ∈ L.parts) (hquiet : ReadsQuiet env src)
    (hcut : ¬ Calm env → ∀ s', E none s') (hpkg : info.pkgSize < 2147483648)
    {fuel : ℕ} {a : d.State} {st : τ} {X : List UInt8} {s : Board} {pos rp cmprsLen : ℕ}
    {rest : List UInt8} (hR : pos < info.rawSize → R a ram cmprsLen) (hInv : Inv st pos X s)
    (hhdr : fwInfoSize ≤ rp) (hrp : rp ≤ info.pkgSize + fwInfoSize) (hrp' : rp ≤ src.len)
    (hdec : Decrypts info.cryptType ram (src.bytes m₀ rp (info.pkgSize + fwInfoSize - rp)) rest)
    {Q : Ram P × Option τ → Board → Prop} {T : Trace}
    (hT : T = d.drive π info.rawSize fuel a pos (src.len - rp) rest)
    (hkeep : (∀ pos n, (sinkOf pos).keepLen n = n) ∨ unit ≠ gzipRemainBufSize ∨
      pos + T.out.length < 4294967296)
    (hflush : ∀ p ∈ T.flushes, FlushAt p)
    (hbad : T.fin = .bad → ∀ ram' s', Q (ram', none) s')
    (hrefused : ∀ ram' s', RefusedIn Refused T.puts (X ++ T.out) s' → Q (ram', none) s')
    (hsome : T.fin = .reached → ∀ ram' st' pos' s', ram'.fwInfo = ram.fwInfo →
      Inv st' pos' (X ++ T.out) s' → Q (ram', some st') s')
    (hstop : ∀ h, T.fin = .stop h → ∀ s', E (some h) s') :
    (pkgLoop call (some src) info fuel ram st pos rp cmprsLen).wp (world L env) Q E s := by
  induction fuel generalizing ram a st X s pos rp cmprsLen rest T with
  | zero =>
    rw [pkgLoop]
    exact hstop .diverged (by rw [hT, Decoder.drive]) s
  | succ fuel ih =>
    rw [pkgLoop]
    by_cases hraw : pos < info.rawSize
    swap
    · rw [if_neg hraw]
      rw [Decoder.drive_reached (by omega)] at hT
      subst hT
      exact hsome rfl ram st pos s rfl (by rwa [List.append_nil])
    have h96 : fwInfoSize = 96 := rfl
    rw [if_pos hraw, u32_of_lt (by omega), subU32_of_le hrp (by omega),
      readLen_of_lt (by omega)]
    have hR := hR hraw
    have hrest := hdec.length
    rw [FalPartition.bytes_length] at hrest
    generalize hn : min qbootCmprsReadSize (info.pkgSize + fwInfoSize - rp) = n
    have hpiece : (rest.take qbootCmprsReadSize).length = n := by
      rw [List.length_take, hrest, hn]
    have hmax : n ≤ qbootCmprsReadSize := by omega
    have hlen := L.len_lt hp
    dsimp only
    rw [Prog.wp_bind]
    by_cases hout : src.len - rp < n
    · rw [Decoder.drive_out hraw (by omega)] at hT
      subst hT
      have h1024 : n ≤ 1024 := hmax
      refine wp_qbtFwPkgRead_out hdec (by omega) (by omega) ?_
      exact hbad rfl ram s
    have hin : (rest.take qbootCmprsReadSize).length ≤ src.len - rp := by omega
    by_cases hover : qbootCmprsBufSize < cmprsLen + n
    · have hfeed : d.feed a (rest.take qbootCmprsReadSize) = ⟨[], [], .stop .undefined⟩ :=
        (href pos).overrun hR (by omega) (by rwa [hpiece])
      rw [Decoder.drive_piece hraw hin, hfeed] at hT
      subst hT
      exact wp_qbtFwPkgRead_overrun hp hquiet hdec hmax (by omega) ((href pos).le hR) hover hcut
        fun s' => hstop .undefined rfl s'
    have hbody : src.bytes s.flash rp n =
        (src.bytes m₀ rp (info.pkgSize + fwInfoSize - rp)).take n := by
      rw [hsrc.bytes hInv (by omega), FalPartition.bytes, FalPartition.bytes,
        Nor.read_take _ _ _ (by omega)]
    have h16 : 16 ∣ (src.bytes m₀ rp (info.pkgSize + fwInfoSize - rp)).length → 16 ∣ n := by
      rw [FalPartition.bytes_length, ← hn, qbootCmprsReadSize]
      omega
    have htake : rest.take n = rest.take qbootCmprsReadSize := by
      rw [List.take_eq_take_iff]
      omega
    have hdrop : rest.drop n = rest.drop qbootCmprsReadSize := by
      rw [List.drop_eq_drop_iff]
      omega
    refine wp_qbtFwPkgRead hp hquiet hdec (by rw [FalPartition.bytes_length]; omega) hmax h16 hbody
      (by omega) (by omega) hcut fun ram₁ s₁ hs₁ hlog₁ hload hfw hdec₁ => ?_
    have hInv₁ := hsrc.read hInv hs₁ hlog₁
    rw [htake] at hload
    have hpieceU : u32 (cmprsLen + n) = cmprsLen + (rest.take qbootCmprsReadSize).length := by
      rw [hpiece, u32_of_lt]
      have : qbootCmprsBufSize = 5120 := rfl
      omega
    simp only [Bool.not_true, Bool.false_eq_true, if_false]
    rw [Prog.wp_bind, hcall, hpieceU]
    refine (href pos).step hR hload (by omega) ?_
    have hpre : ∃ ps os, T.puts = (d.feed a (rest.take qbootCmprsReadSize)).chunks.map
          (π.put (info.rawSize - pos)) ++ ps ∧
        T.out = π.chunkBytes (info.rawSize - pos) (d.feed a (rest.take qbootCmprsReadSize)) ++
          os := by
      rw [hT]
      exact Decoder.drive_prefix hraw hin
    obtain ⟨ps, os, hputs, hout'⟩ := hpre
    have hchunk := fun c hc => And.intro (hlaw.dvd a (rest.take qbootCmprsReadSize) c hc)
      ((href pos).chunk_le hR (by omega) c hc)
    have htail := hlaw.tail a (rest.take qbootCmprsReadSize)
    rw [Decoder.drive_piece hraw hin] at hT
    generalize d.feed a (rest.take qbootCmprsReadSize) = r at *
    refine wp_deliver hsink hraw hchunk htail (fun a' hnext hnil => ?_) hInv₁
      (fun s' hr ram' _ => ?_)
      (fun hnext s' ram' _ => ?_) (fun h hnext s' => ?_) fun a' hnext st' s' hi ram' len' hkept hR' => ?_
    · rw [hnext] at hT
      refine hflush _ ?_
      rw [hT, Trace.after_flushes, if_neg hnil]
      exact List.mem_cons_self
    · refine hrefused ram' s' (hr.mono ?_ ?_)
      · rw [hputs]
        exact List.subset_append_left ..
      · rw [hout', ← List.append_assoc]
        exact List.prefix_append ..
    · rw [hnext] at hT
      exact hbad (by rw [hT]; rfl) ram' s'
    · rw [hnext] at hT
      exact hstop h (by rw [hT]; rfl) s'
    · rw [hnext] at hT
      have hi := hsink.wrap hi
      dsimp only
      have hrpU : u32 (rp + n) = rp + n := u32_of_lt (by omega)
      rw [hrpU]
      have hnext_rp : info.pkgSize + fwInfoSize - rp - n = info.pkgSize + fwInfoSize - (rp + n) := by
        omega
      have hbytes : (src.bytes m₀ rp (info.pkgSize + fwInfoSize - rp)).drop n =
          src.bytes m₀ (rp + n) (info.pkgSize + fwInfoSize - (rp + n)) := by
        rw [FalPartition.bytes, Nor.read_drop _ _ _ (by omega), FalPartition.bytes, hnext_rp,
          Nat.add_assoc]
      rw [hbytes, hdrop] at hdec₁
      have hsub : src.len - rp - (rest.take qbootCmprsReadSize).length = src.len - (rp + n) := by
        omega
      rw [hsub] at hT
      have hout'' : ∀ out, X ++ (π.chunkBytes (info.rawSize - pos) r ++
          π.tailBytes (info.rawSize - pos) r ++ out) = X ++
            (π.chunkBytes (info.rawSize - pos) r ++
              π.tailBytes (info.rawSize - pos) r) ++ out :=
        fun out => (List.append_assoc ..).symm
      refine ih (fun hlt' => hR' ?_) hi (by omega) (by omega) (by omega)
        (hdec₁.congr hkept.aesIv) rfl ?_ ?_ (fun hf ram'' s'' => ?_) (fun ram'' s'' hr => ?_)
        (fun hf ram'' st'' pos'' s'' hfw' hi' => ?_) fun h hf s'' => ?_
      · -- a flush that cut the count down has reached the end
        refine or_iff_not_imp_left.2 fun hnil => ?_
        obtain ⟨hunit, hlt⟩ := htail hnil
        rcases hkeep with hk | hk | hk
        · exact hk pos _
        · exact absurd hunit hk
        refine (hsink.keepLen pos r.tail.length).resolve_right fun hend => ?_
        rw [hsink.flushLen pos r.tail hlt] at hend
        rw [hT, Trace.after_out, List.length_append, List.length_append, Policy.tailBytes,
          if_neg hnil] at hk
        rw [List.length_append, Policy.tailBytes, if_neg hnil, u32_of_lt (by omega)] at hlt'
        omega
      · refine hkeep.imp_right fun hk => hk.imp_right fun hk => ?_
        rw [hT, Trace.after_out, List.length_append] at hk
        have hu := u32_of_lt (n := pos + (π.chunkBytes (info.rawSize - pos) r ++
          π.tailBytes (info.rawSize - pos) r).length) (by omega)
        omega
      · intro p hp'
        refine hflush p ?_
        rw [hT, Trace.after_flushes]
        split
        · exact hp'
        · exact List.mem_cons_of_mem _ hp'
      · exact hbad (by rw [hT]; exact hf) ram'' s''
      · refine hrefused ram'' s'' (hr.mono ?_ ?_)
        · rw [hT]
          exact List.subset_append_right ..
        · exact ⟨[], by rw [List.append_nil, hT, Trace.after_out, hout'']⟩
      · refine hsome (by rw [hT]; exact hf) ram'' st'' pos'' s'' (hfw'.trans (hkept.fwInfo.trans hfw)) ?_
        rw [hT, Trace.after_out, hout'']
        exact hi'
      · exact hstop h (by rw [hT]; exact hf) s''

end Loop

end RtThreadOta
