import RtThreadOta.Qboot.UpdateSpec

/-!
# Which programs a release issues

The log of a release lists the programs of its target. Those of the decoded bytes follow each other
without a gap from the start of the target, each a multiple of the decoder's unit, and the header's
is the last.
-/

namespace RtThreadOta

open Interaction Nor Words

variable {L : Layout} {P : Codecs} {env : Env} {dst src : FalPartition} {ram : Ram P} {fuel : ℕ}
  {s : Board} {info : FwInfo} {m₀ : Flash} {unit : ℕ}

/-- The programs of a partition in a log, oldest first: where in the partition, and what. -/
def FalPartition.programs (p : FalPartition) : List Event → List (ℕ × List UInt8)
  | [] => []
  | e :: older =>
    p.programs older ++
      match e.op with
      | .write dev offset buf =>
        if dev = p.dev ∧ p.offset ≤ offset ∧ offset < p.offset + p.len then
          [(offset - p.offset, buf)]
        else []
      | _ => []

/-- Chunks one behind the other from an address on. -/
def inRow : ℕ → List (List UInt8) → List (ℕ × List UInt8)
  | _, [] => []
  | a, c :: cs => (a, c) :: inRow (a + c.length) cs

theorem inRow_append (a : ℕ) (cs ds : List (List UInt8)) :
    inRow a (cs ++ ds) = inRow a cs ++ inRow (a + cs.flatten.length) ds := by
  induction cs generalizing a with
  | nil => rfl
  | cons c cs ih =>
    rw [List.cons_append, inRow, inRow, ih, List.flatten_cons, List.length_append, Nat.add_assoc,
      List.cons_append]

/-- Each chunk starts where those before it end. -/
theorem inRow_start {a : ℕ} {cs : List (List UInt8)} (hdvd : ∀ c ∈ cs, unit ∣ c.length)
    (ha : unit ∣ a) : ∀ w ∈ inRow a cs, unit ∣ w.1 ∧ unit ∣ w.2.length := by
  induction cs generalizing a with
  | nil => exact fun w hw => by cases hw
  | cons c cs ih =>
    intro w hw
    have hc := hdvd c List.mem_cons_self
    rcases List.mem_cons.1 hw with rfl | hw
    · exact ⟨ha, hc⟩
    · exact ih (fun c' hc' => hdvd c' (List.mem_cons_of_mem _ hc')) (Nat.dvd_add ha hc) w hw

@[simp] theorem FalPartition.programs_read (p : FalPartition) (dev : Dev) (offset size : ℕ) (ret : ℤ)
    (log : List Event) : p.programs (⟨.read dev offset size, ret⟩ :: log) = p.programs log :=
  List.append_nil _

@[simp] theorem FalPartition.programs_print (p : FalPartition) (msg : Msg) (ret : ℤ)
    (log : List Event) : p.programs (⟨.print msg, ret⟩ :: log) = p.programs log :=
  List.append_nil _

theorem FalPartition.programs_write {p : FalPartition} {a : ℕ} (ha : a < p.len) (bs : List UInt8)
    (ret : ℤ) (log : List Event) :
    p.programs (⟨.write p.dev (p.offset + a) bs, ret⟩ :: log) = p.programs log ++ [(a, bs)] := by
  rw [programs]
  dsimp only
  rw [if_pos ⟨rfl, by omega, by omega⟩, Nat.add_sub_cancel_left]

theorem FalPartition.programs_write_end {p : FalPartition} {a : ℕ} (ha : p.len ≤ a) (bs : List UInt8)
    (ret : ℤ) (log : List Event) :
    p.programs (⟨.write p.dev (p.offset + a) bs, ret⟩ :: log) = p.programs log := by
  rw [programs]
  dsimp only
  rw [if_neg (by omega), List.append_nil]

/-- The programs so far are the bytes `X` in a row behind those before. -/
def InRow (dst : FalPartition) (unit : ℕ) (ws : List (ℕ × List UInt8)) (X : List UInt8)
    (log : List Event) : Prop :=
  ∃ cs, dst.programs log = ws ++ inRow 0 cs ∧ cs.flatten = X ∧ ∀ c ∈ cs, unit ∣ c.length

/-- A program right behind the bytes so far. -/
theorem InRow.write {ws : List (ℕ × List UInt8)} {X bs : List UInt8} {log : List Event}
    (h : InRow dst unit ws X log) (hfit : X.length + bs.length ≤ dst.len) (hdvd : unit ∣ bs.length)
    (ret : ℤ) :
    InRow dst unit ws (X ++ bs) (⟨.write dst.dev (dst.offset + X.length) bs, ret⟩ :: log) := by
  obtain ⟨cs, hcs, rfl, hunit⟩ := h
  by_cases hend : cs.flatten.length < dst.len
  · refine ⟨cs ++ [bs], ?_, ?_, fun c hc => ?_⟩
    · rw [FalPartition.programs_write hend, hcs, inRow_append, Nat.zero_add, List.append_assoc]
      rfl
    · rw [List.flatten_append, List.flatten_singleton]
    · rcases List.mem_append.1 hc with hc | hc
      · exact hunit c hc
      · obtain rfl := List.mem_singleton.1 hc
        exact hdvd
  · -- nothing is left to program at the end of the partition
    have hnil : bs = [] := List.eq_nil_of_length_eq_zero (by omega)
    refine ⟨cs, ?_, ?_, hunit⟩
    · rw [FalPartition.programs_write_end (by omega), hcs]
    · rw [hnil, List.append_nil]

/-- What the loop keeps: the programs in a row, and the rest of the flash as it was. -/
def rowInv (dst : FalPartition) (unit : ℕ) (m₀ : Flash) (ws : List (ℕ × List UInt8)) : SinkInv Unit :=
  fun _ pos X s => dst.SameElsewhere m₀ s.flash ∧ pos = X.length ∧ X.length ≤ dst.len ∧
    InRow dst unit ws X s.log

theorem rowInv_spec (hdst : dst ∈ L.parts) {rawSize : ℕ} {ws : List (ℕ × List UInt8)} :
    SinkSpec L env (fun _ => destSink (some dst)) id destPolicy rawSize unit
      (rowInv dst unit m₀ ws) (rowInv dst unit m₀ ws) (fun _ _ _ => True)
      (fun a => a + gzipRemainBufSize ≤ dst.len) (fun _ _ => True) where
  putLen_zero _ := rfl
  putLen _ _ := rfl
  flushLen _ bs hlt := by
    simp only [destSink, destPolicy, List.length_append, List.length_replicate]
    omega
  keepLen _ _ := Or.inl rfl
  enter h _ := h
  leave h := h
  wrap {st pos X s} h := by
    obtain ⟨hw, rfl, hle, hrow⟩ := h
    have := L.len_lt hdst
    exact ⟨hw, u32_of_lt (by omega), hle, hrow⟩
  put {st X s pos writeLen bs} h _ hunit hbs := by
    obtain ⟨hw, hpos, hle, hrow⟩ := h
    have hlen := L.len_lt hdst
    have hbuf : qbootBufSize = 4096 := rfl
    have hput : destPolicy.put (rawSize - pos) bs = bs := rfl
    rw [id, hpos, hput]
    show (falPartitionWrite (some dst) X.length bs >>= _).wp _ _ _ _
    rw [Prog.wp_bind]
    by_cases hout : dst.len < X.length + bs.length
    · rw [falPartitionWrite_out hout (by omega)]
      exact trivial
    · refine wp_falPartitionWrite hdst (by omega) (fun _ _ => trivial)
        (fun _ s' hs' hlog => ?_) fun _ r hr s' _ _ => ?_
      · rw [if_neg (by omega)]
        refine ⟨hs' ▸ hw.trans (FalPartition.sameElsewhere_programmed (by omega)),
          List.length_append.symm, ?_, ?_⟩
        · rw [List.length_append]
          show X.length + bs.length ≤ dst.len
          omega
        · rw [hlog]
          exact hrow.write (by omega) hunit _
      · rw [if_pos hr]
        exact trivial
  flush {st X s pos writeLen bs} h hpos hunit hbs hat := by
    obtain ⟨hw, hpos, hle, hrow⟩ := h
    subst hunit
    have hlen := L.len_lt hdst
    have hpad : (destPolicy.flush (rawSize - pos) bs).length = gzipRemainBufSize := by
      simp only [destPolicy, List.length_append, List.length_replicate]
      omega
    rw [id, hpos]
    show (falPartitionWrite (some dst) X.length (destPolicy.flush (rawSize - pos) bs) >>= _).wp
      _ _ _ _
    generalize destPolicy.flush (rawSize - pos) bs = pad at hpad ⊢
    rw [hpos] at hat
    have hdone : ∀ s' : Board, dst.SameElsewhere m₀ s'.flash →
        InRow dst gzipRemainBufSize ws (X ++ pad) s'.log →
        rowInv dst gzipRemainBufSize m₀ ws () (X.length + pad.length) (X ++ pad) s' :=
      fun s' h₁ h₂ => ⟨h₁, List.length_append.symm, by rw [List.length_append]; omega, h₂⟩
    rw [Prog.wp_bind]
    refine wp_falPartitionWrite hdst (by omega) (fun _ _ => trivial) (fun _ s' hs' hlog => ?_)
      fun _ r _ s' hs' hlog => ?_
    · refine hdone s' (hs' ▸ hw.trans (FalPartition.sameElsewhere_programmed (by omega))) ?_
      rw [hlog]
      exact hrow.write (by omega) ⟨1, by omega⟩ _
    · refine hdone s' (hw.trans (hs'.elsewhere (by omega))) ?_
      rw [hlog]
      exact hrow.write (by omega) ⟨1, by omega⟩ _

theorem rowInv_keepsSource {m₁ : Flash} {ws : List (ℕ × List UInt8)} (hdst : dst ∈ L.parts)
    (hsrc : src ∈ L.parts) (hne : dst ≠ src) (h₁ : dst.SameElsewhere m₁ m₀) :
    KeepsSource src m₁ (rowInv dst unit m₀ ws) where
  bytes h hn := (h₁.trans h.1).bytes_eq hdst hsrc hne hn
  read h hflash hlog := by
    rw [rowInv, hflash, hlog, InRow, FalPartition.programs_read]
    exact h

/-- An erase. -/
def Op.IsErase : Op → Prop
  | .erase .. => True
  | _ => False

theorem only_eraseTarget_isErase (part : Option FalPartition) (rawSize : ℕ) :
    (eraseTarget part rawSize).Only Op.IsErase := by
  have herase : ∀ addr size, (falPartitionErase part addr size).Only Op.IsErase := by
    intro addr size
    cases part with
    | none => trivial
    | some p => exact .ite trivial (Prog.only_ask.2 trivial)
  exact (herase ..).bind fun _ => .ite trivial ((herase ..).bind fun _ => trivial)

/-- Without writes nothing is programmed. -/
theorem Grown.programs_eq {A : Op → Prop} {s' : Board} (h : Grown A s s')
    (hA : ∀ dev offset buf, ¬ A (.write dev offset buf)) :
    dst.programs s'.log = dst.programs s.log := by
  obtain ⟨es, hes, hes'⟩ := h
  rw [hes]
  clear hes
  induction es with
  | nil => rfl
  | cons e es ih =>
    have he := hes' e List.mem_cons_self
    rw [List.cons_append, FalPartition.programs,
      ih fun e' he' => hes' e' (List.mem_cons_of_mem _ he')]
    obtain ⟨op, ret⟩ := e
    cases op with
    | write dev offset buf => exact absurd he (hA dev offset buf)
    | _ => exact List.append_nil _

/-- The header's program at the tail. -/
theorem wp_qbtFwInfoWrite_programs {name : List UInt8} (hname : falPartitionFind L name = some dst) :
    (qbtFwInfoWrite L name info true).wp (world L env)
      (fun ok s' => ok = true →
        dst.programs s'.log = dst.programs s.log ++ [(dst.tail, info.bytes)])
      (fun _ _ => True) s := by
  have hdst := mem_of_find hname
  have htail := Layout.tail_add hdst
  have hbytes : info.bytes.length = fwInfoSize := Buffer.bytes_length _
  have h96 : 0 < fwInfoSize := Nat.succ_pos _
  rw [qbtFwInfoWrite, hname]
  dsimp only
  rw [Prog.wp_bind]
  show (falPartitionWrite (some dst) dst.tail info.bytes).wp _ _ _ _
  generalize info.bytes = bs at hbytes ⊢
  have hcut : ¬ Calm env → ∀ _ : Board, True := fun _ _ => trivial
  refine wp_falPartitionWrite hdst (by omega) hcut (fun _ s' _ hlog => ?_) fun _ r hr s' _ _ => ?_
  · intro _
    rw [hlog]
    exact FalPartition.programs_write (by omega) _ _ _
  · intro htrue
    rw [decide_eq_false (by omega)] at htrue
    cases htrue

/-- The release from the erased target on programs the decoded bytes in a row and then the header. -/
theorem wp_releaseTo_programs {d : Decoder} {T : Trace} {dstName srcName : PartName}
    (h : Releasable L dst src dstName srcName ram info) (hquiet : ReadsQuiet env src)
    (hd : decoderOf P fuel info.cmprsType = some d) (hsame : dst.SameElsewhere m₀ s.flash)
    (hT : T = d.drive destPolicy info.rawSize fuel d.init 0 (src.len - fwInfoSize)
      (src.plain P m₀ info))
    (hflush : ∀ p ∈ T.flushes, p + gzipRemainBufSize ≤ dst.len) {ram₁ ram₂ : Ram P}
    (hram₁ : qbtFwDecryptInit info.cryptType ram = some ram₁)
    (hram₂ : qbtFwDecompressInit info.cmprsType ram₁ = some ram₂) (hkept : Kept ram₁ ram₂) :
    (releaseTo L fuel (dstName.get ram) (some dst) (some src) info ram₂).wp (world L env)
      (fun r s' => r.2 = true → ∃ cs, cs.flatten = T.out ∧
        (∀ c ∈ cs, decoderUnit info.cmprsType ∣ c.length) ∧
        dst.programs s'.log = dst.programs s.log ++ inRow 0 cs ++ [(dst.tail, info.bytes)])
      (fun _ _ => True) s := by
  have hdst := mem_of_find h.dst_find
  have hsrc := mem_of_find h.src_find
  have hcut : ¬ Calm env → ∀ _ : Board, True := fun _ _ => trivial
  obtain ⟨R, href⟩ := decoderOf_refines hd
  rw [releaseTo, Prog.wp_bind]
  have hInv : rowInv dst (decoderUnit info.cmprsType) s.flash (dst.programs s.log) () 0 [] s :=
    ⟨.refl _ _, rfl, Nat.zero_le _, [], (List.append_nil _).symm, rfl, fun c hc => by cases hc⟩
  refine wp_pkgLoop (rowInv_spec hdst) (fun _ => href (destSink _) rfl) (decoderOf_lawful hd)
    (fun _ _ _ _ => rfl) (rowInv_keepsSource hdst hsrc h.ne hsame) hsrc
    hquiet hcut h.pkg_lt (fun _ => (href (destSink none) rfl).init hram₂) hInv (Nat.le_refl _)
    (Nat.le_add_left ..) (L.sound src hsrc).header_fits (decrypts_start hram₁ hkept h.aes) hT (Or.inl fun _ _ => rfl)
    hflush (fun _ ram' s' => ?_) (fun ram' s' _ => ?_) (fun _ ram' st' pos' s₃ _ hi => ?_)
    fun _ _ _ => trivial
  · intro hfalse
    cases hfalse
  · intro hfalse
    cases hfalse
  obtain ⟨-, -, -, cs, hcs, hX, hunit⟩ := hi
  dsimp only
  rw [Prog.wp_bind]
  refine Prog.wp_imp (wp_qbtFwInfoWrite_programs h.dst_find) fun ok s' hok htrue => ?_
  exact ⟨cs, hX, hunit, by rw [hok htrue, hcs]⟩

/-- The erases touch only the target and program nothing. -/
theorem wp_eraseTarget_programs (hdst : dst ∈ L.parts) {rawSize : ℕ} (hraw : rawSize ≤ dst.len) :
    (eraseTarget (some dst) rawSize).wp (world L env)
      (fun ok s' => ok = true → dst.SameElsewhere s.flash s'.flash ∧
        dst.programs s'.log = dst.programs s.log) (fun _ _ => True) s := by
  have herase : (eraseTarget (some dst) rawSize).wp (world L env)
      (fun ok s' => ok = true → dst.SameElsewhere s.flash s'.flash) (fun _ _ => True) s := by
    refine wp_eraseTarget hdst hraw (fun _ _ => trivial) (fun s' hs' => ?_) fun _ s' => ?_
    · exact fun _ => hs'.elsewhere
    · exact fun hfalse => Bool.noConfusion hfalse
  have hgrown := wp_grown (L := L) (only_eraseTarget_isErase (some dst) rawSize) env s
  refine Prog.wp_mono (Prog.wp_and herase hgrown) (fun ok s' hs' htrue => ?_) fun _ _ _ => trivial
  exact ⟨hs'.1 htrue, hs'.2.programs_eq fun _ _ _ h => h⟩

/-- A release that succeeds programmed the decoded bytes in a row and then the header. -/
theorem wp_qbtFwRelease_programs {d : Decoder} {T : Trace} {dstName srcName : PartName}
    (h : Releasable L dst src dstName srcName ram info) (hquiet : ReadsQuiet env src)
    (hd : decoderOf P fuel info.cmprsType = some d)
    (hT : T = d.drive destPolicy info.rawSize fuel d.init 0 (src.len - fwInfoSize)
      (src.plain P s.flash info))
    (hflush : ∀ p ∈ T.flushes, p + gzipRemainBufSize ≤ dst.len) :
    (qbtFwRelease L fuel dstName srcName ram).wp (world L env)
      (fun r s' => r.2 = true → ∃ cs, cs.flatten = T.out ∧
        (∀ c ∈ cs, decoderUnit info.cmprsType ∣ c.length) ∧
        dst.programs s'.log = dst.programs s.log ++ inRow 0 cs ++ [(dst.tail, info.bytes)])
      (fun _ _ => True) s := by
  have hcut : ¬ Calm env → ∀ _ : Board, True := fun _ _ => trivial
  obtain ⟨ram₁, ram₂, hram₁, hram₂, hkept, -, heq⟩ :=
    qbtFwRelease_eq h.dst_find h.src_find h.fwInfo h.crypt hd
  rw [heq, Prog.wp_bind]
  refine wp_kprintf hcut fun s₁ hs₁ hlog₁ => ?_
  rw [Prog.wp_bind]
  refine Prog.wp_imp (wp_eraseTarget_programs (mem_of_find h.dst_find) h.raw) fun ok s₂ hs₂ => ?_
  cases ok with
  | false =>
    intro hfalse
    cases hfalse
  | true =>
    obtain ⟨hsame, hprog⟩ := hs₂ rfl
    rw [hs₁] at hsame
    rw [hlog₁, FalPartition.programs_print] at hprog
    rw [Bool.not_true, if_neg Bool.false_ne_true, ← hprog]
    exact wp_releaseTo_programs h hquiet hd hsame hT hflush hram₁ hram₂ hkept

/-- What a successful release says of the flash and its programs, the update says. -/
theorem wp_qbtFwUpdate_of_release {dstName srcName : PartName} (dst : FalPartition)
    (Φ : Flash → List (ℕ × List UInt8) → Prop)
    (hrel : (qbtFwRelease L fuel dstName srcName ram).wp (world L env)
      (fun r s' => r.2 = true → Φ s'.flash (dst.programs s'.log)) (fun _ _ => True) s) :
    (qbtFwUpdate L fuel dstName srcName ram).wp (world L env)
      (fun r s' => r.2 = true → Φ s'.flash (dst.programs s'.log)) (fun _ _ => True) s := by
  have hno : ∀ ram' : Ram P, ∀ s' : Board,
      ((ram', false) : Ram P × Bool).2 = true → Φ s'.flash (dst.programs s'.log) :=
    fun _ _ hfalse => Bool.noConfusion hfalse
  rw [qbtFwUpdate]
  split
  · exact hno ram s
  rw [Prog.wp_bind]
  refine Prog.wp_imp hrel fun r s₁ hr => ?_
  obtain ⟨ram₁, ok⟩ := r
  cases ok with
  | false => exact hno ram₁ s₁
  | true =>
  have hr := hr rfl
  simp only [Bool.not_true, Bool.false_eq_true, if_false]
  rw [Prog.wp_bind]
  have honly : (qbtDestPartVerify L fuel dstName ram₁).Only Op.IsRead := only_qbtDestPartVerify dstName
  have hflash := wp_flash_eq (L := L) honly env s₁
  have hgrown := wp_grown (L := L) honly env s₁
  refine Prog.wp_mono (Prog.wp_and hflash hgrown) (fun r s₂ hs₂ => ?_) fun _ _ _ => trivial
  obtain ⟨ram₂, ok⟩ := r
  cases ok with
  | false => exact hno ram₂ s₂
  | true =>
  simp only [Bool.not_true, Bool.false_eq_true, if_false]
  rw [Prog.wp_bind]
  refine wp_kprintf (fun _ _ => trivial) fun s₃ hs₃ hlog₃ => ?_
  intro _
  rw [hs₃, hlog₃, FalPartition.programs_print, hs₂.1, hs₂.2.programs_eq fun _ _ _ h => h]
  exact hr

end RtThreadOta
