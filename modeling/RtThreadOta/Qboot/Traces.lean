import RtThreadOta.Fal.PartitionSpec
import RtThreadOta.Qboot.Boot

/-!
# Which operations the functions ask for

Checking a package only reads. Releasing one also erases and writes its target partition. So a run
adds only such operations to the log.
-/

namespace RtThreadOta

open Interaction Words

variable {L : Layout} {P : Codecs} {τ : Type} {A : Op → Prop} {fuel : ℕ} {ram : Ram P}

/-- The log grew by operations in `A`. -/
def Grown (A : Op → Prop) (s s' : Board) : Prop :=
  ∃ es, s'.log = es ++ s.log ∧ ∀ e ∈ es, A e.op

theorem Grown.refl (A : Op → Prop) (s : Board) : Grown A s s := ⟨[], rfl, by simp⟩

theorem Grown.trans {s s' s'' : Board} (h : Grown A s s') (h' : Grown A s' s'') : Grown A s s'' := by
  obtain ⟨es, hs, hA⟩ := h
  obtain ⟨es', hs', hA'⟩ := h'
  refine ⟨es' ++ es, by rw [hs', hs, List.append_assoc], fun e he => ?_⟩
  exact (List.mem_append.1 he).elim (hA' e) (hA e)

/-- An operation is logged, also one the power is lost in. -/
theorem world_log (env : Env) (o : Op) (s : Board) :
    ∃ ret, (world L env o s).2.log = ⟨o, ret⟩ :: s.log := by
  rw [world]
  split
  · exact ⟨_, rfl⟩
  · exact ⟨_, rfl⟩

/-- A program's operations are what its run adds to the log. -/
theorem wp_grown {α : Type} {p : Code α} (h : p.Only A) (env : Env) (s : Board) :
    p.wp (world L env) (fun _ s' => Grown A s s') (fun _ s' => Grown A s s') s := by
  refine h.inv (Grown A s) (fun o s' ho hs' => hs'.trans ?_) (Grown.refl A s)
  obtain ⟨ret, heq⟩ := world_log (L := L) env o s'
  exact ⟨[⟨o, ret⟩], heq, by simpa using ho⟩

/-- A call of the device a partition lives on, within the partition's first address. -/
def Op.OnPart (part : Option FalPartition) : Op → Prop
  | .write dev _ _ => ∃ p, part = some p ∧ dev = p.dev
  | .erase dev offset _ => ∃ p, part = some p ∧ dev = p.dev ∧ p.offset ≤ offset ∧
      offset < p.offset + p.len
  | .read .. => True
  | _ => False

/-- A read. -/
def Op.IsRead : Op → Prop
  | .read .. => True
  | _ => False

theorem only_falPartitionRead (part : Option FalPartition) (addr size room : ℕ) :
    (falPartitionRead part addr size room).Only Op.IsRead := by
  cases part with
  | none => trivial
  | some p => exact .ite trivial (.ite trivial (Prog.only_ask.2 trivial))

theorem only_qbtFwInfoRead (name : List UInt8) (fromTail : Bool) :
    (qbtFwInfoRead L name ram fromTail).Only Op.IsRead := by
  rw [qbtFwInfoRead]
  split
  · trivial
  · refine (only_falPartitionRead ..).bind fun r => ?_
    dsimp only
    split <;> trivial

theorem only_qbtFwCrcCheckLoop (part : Option FalPartition) (addr size pos : ℕ) (crc : UInt32) :
    (qbtFwCrcCheckLoop part addr size fuel ram pos crc).Only Op.IsRead := by
  induction fuel generalizing ram pos crc with
  | zero => trivial
  | succ fuel ih =>
    rw [qbtFwCrcCheckLoop]
    split
    · refine (only_falPartitionRead ..).bind fun r => ?_
      dsimp only
      split
      · trivial
      · exact ih ..
    · trivial

theorem only_qbtFwCrcCheck (name : List UInt8) (addr size crc : ℕ) :
    (qbtFwCrcCheck L fuel name addr size crc ram).Only Op.IsRead := by
  refine (only_qbtFwCrcCheckLoop ..).bind fun r => ?_
  dsimp only
  split <;> trivial

theorem only_qbtReleaseSignCheck (name : List UInt8) (info : FwInfo) :
    (qbtReleaseSignCheck L name info).Only Op.IsRead := by
  refine (only_falPartitionRead ..).bind fun r => ?_
  dsimp only
  split <;> trivial

theorem only_qbtAesDecrypt (off len : ℕ) : (qbtAesDecrypt ram off len).Only A := by
  rw [qbtAesDecrypt]
  split <;> trivial

theorem only_qbtFwPkgRead (part : Option FalPartition) (pos off len cryptType : ℕ) :
    (qbtFwPkgRead part pos off len ram cryptType).Only Op.IsRead := by
  rw [qbtFwPkgRead]
  split
  · refine (only_falPartitionRead ..).bind fun r => ?_
    dsimp only
    split <;> trivial
  split
  · refine (only_falPartitionRead ..).bind fun r => ?_
    dsimp only
    split
    · trivial
    · exact (only_qbtAesDecrypt ..).bind fun _ => trivial
  · trivial

/-! ## Decoding -/

/-- What a sink asks for. -/
def Sink.Only (sink : Sink τ) (A : Op → Prop) : Prop :=
  (∀ st pos bs, (sink.put st pos bs).Only A) ∧ ∀ st pos bs, (sink.flush st pos bs).Only A

theorem only_gzipArmLoop {sink : Sink τ} (h : sink.Only A) (cmprsLen : ℕ) (st : τ)
    (pos writeLen : ℕ) : (gzipArmLoop sink cmprsLen fuel ram st pos writeLen).Only A := by
  induction fuel generalizing ram st writeLen with
  | zero => trivial
  | succ fuel ih =>
    rw [gzipArmLoop]
    dsimp only
    split
    · trivial
    · refine Prog.Only.bind (.ite (h.1 ..) (Prog.only_ret _)) fun r => ?_
      split
      · trivial
      · exact .ite (.ite ((h.2 ..).bind fun _ => Prog.only_ret _) (Prog.only_ret _)) (ih ..)

theorem only_framedArmLoop {decompress : List UInt8 → List UInt8} {sink : Sink τ}
    (h : sink.Only A) (left cmprsLen : ℕ) (st : τ) (pos writeLen : ℕ) :
    (framedArmLoop decompress sink left ram cmprsLen st pos writeLen).Only A := by
  induction left generalizing ram cmprsLen st writeLen with
  | zero => trivial
  | succ left ih =>
    rw [framedArmLoop]
    refine .ite (Prog.only_ret _) ?_
    refine .ite (Prog.only_ret _) ?_
    refine .ite (Prog.only_halt _) ?_
    refine .ite (Prog.only_ret _) ?_
    refine .ite (Prog.only_halt _) ?_
    refine .ite (Prog.only_ret _) ?_
    refine (h.1 ..).bind fun r => ?_
    split
    · trivial
    · exact ih ..

theorem only_decompressArm {sink : Sink τ} (h : sink.Only A) (cmprsType cmprsLen : ℕ) (st : τ)
    (pos : ℕ) : (decompressArm fuel sink cmprsType ram cmprsLen st pos).Only A := by
  rw [decompressArm]
  split
  · refine (h.1 ..).bind fun r => ?_
    split <;> trivial
  split
  · exact only_gzipArmLoop h ..
  split
  · exact only_framedArmLoop h ..
  split
  · exact only_framedArmLoop h ..
  · trivial

theorem only_pkgLoop {call : τ → ℕ → Ram P → ℕ → Code (ArmEnd P τ)}
    (hread : ∀ o, Op.IsRead o → A o) (h : ∀ st pos ram len, (call st pos ram len).Only A)
    (srcPart : Option FalPartition) (info : FwInfo) (st : τ) (pos srcReadPos cmprsLen : ℕ) :
    (pkgLoop call srcPart info fuel ram st pos srcReadPos cmprsLen).Only A := by
  induction fuel generalizing ram st pos srcReadPos cmprsLen with
  | zero => trivial
  | succ fuel ih =>
    rw [pkgLoop]
    split
    · refine ((only_qbtFwPkgRead ..).mono hread).bind fun r => ?_
      dsimp only
      split
      · trivial
      refine (h ..).bind fun r => ?_
      split
      · trivial
      · exact ih ..
    · trivial

theorem crcSink_only (maxCalLen : ℕ) : (crcSink maxCalLen).Only A :=
  ⟨fun _ _ _ => trivial, fun _ _ _ => trivial⟩

theorem only_qbtAppCrcCheck (name : List UInt8) :
    (qbtAppCrcCheck L fuel name ram).Only Op.IsRead := by
  rw [qbtAppCrcCheck]
  dsimp only
  split
  · trivial
  split
  · trivial
  refine (only_pkgLoop (fun _ h => h) (fun _ _ _ _ => only_decompressArm (crcSink_only _) ..)
    ..).bind fun r => ?_
  split <;> trivial

theorem only_qbtFwCheck (name : List UInt8) : (qbtFwCheck L fuel name ram).Only Op.IsRead := by
  rw [qbtFwCheck]
  split
  · trivial
  refine (only_qbtFwInfoRead ..).bind fun r => ?_
  dsimp only
  split
  · trivial
  split
  · trivial
  refine (only_qbtFwCrcCheck ..).bind fun r' => ?_
  split
  · trivial
  split
  · exact only_qbtAppCrcCheck ..
  · trivial

theorem only_qbtDestPartVerify (name : PartName) :
    (qbtDestPartVerify L fuel name ram).Only Op.IsRead := by
  refine (only_qbtFwInfoRead ..).bind fun r => ?_
  dsimp only
  split
  · trivial
  split
  · trivial
  split
  · exact only_qbtFwCrcCheck ..
  · trivial

end RtThreadOta
