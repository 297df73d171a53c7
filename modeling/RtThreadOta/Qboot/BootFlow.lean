import RtThreadOta.Packager.FirmwarePack
import RtThreadOta.Qboot.Traces

/-!
# Which application a boot starts

The log of a boot says what became of the app partition: `appState` reads off whether it was left
alone, was begun to be erased, or was completely rewritten since. A restore that reports success
always leaves it rewritten, so the jumps behind one are sound. The jump behind
`qbt_release_from_part(download, true)` does not look at the result of the release, and there the
boot starts whatever the vector words let pass.
-/

namespace RtThreadOta

open Interaction Words

variable {P : Codecs} {fuel : ℕ} {ram : Ram P}

/-- What a boot did to the app partition. -/
inductive AppState where
  | untouched
  /-- an erase was begun and no update of the partition succeeded after it -/
  | halfWritten
  /-- an update succeeded -/
  | rewritten
deriving DecidableEq, Repr

/-- An erase of the app partition. -/
def Op.erasesApp (L : Layout) : Op → Bool
  | .erase dev offset _ =>
    match falPartitionFind L qbootAppPartName with
    | some p => decide (dev = p.dev ∧ p.offset ≤ offset ∧ offset < p.offset + p.len)
    | none => false
  | _ => false

/-- The partition the last `"Start erase partition"` names. -/
def updateTarget : List Event → Option (List UInt8)
  | [] => none
  | e :: older =>
    match e.op with
    | .print (.startErase dst) => some dst
    | _ => updateTarget older

/-- What a boot did to the app partition, from its log. -/
def appState (L : Layout) : List Event → AppState
  | [] => .untouched
  | e :: older =>
    if e.op.erasesApp L then .halfWritten
    else if e.op = .print .updateSuccess ∧ updateTarget older = some qbootAppPartName then .rewritten
    else appState L older

/-- The vector words that the flash holds pass the check of `qbt_jump_to_app`. -/
def bootable (m : Flash) : Bool :=
  legitimateApp (le32 (Nor.read m .onchip qbootAppAddr 4) 0)
    (le32 (Nor.read m .onchip (qbootAppAddr + 4) 4) 0)

/-- The board at power-up. -/
def Board.powerUp (m : Flash) : Board := ⟨m, 0, []⟩

variable {L : Layout}

/-! ## Reading the log -/

/-- An operation that neither erases the app partition nor prints. -/
def Op.Silent (L : Layout) (o : Op) : Prop := o.erasesApp L = false ∧ ∀ msg, o ≠ .print msg

theorem Op.IsRead.silent {o : Op} (h : o.IsRead) : o.Silent L := by
  cases o <;> first | exact ⟨rfl, fun _ h => Op.noConfusion h⟩ | exact h.elim

theorem appState_append {es : List Event} (h : ∀ e ∈ es, e.op.Silent L) (log : List Event) :
    appState L (es ++ log) = appState L log := by
  induction es with
  | nil => rfl
  | cons e es ih =>
    obtain ⟨he, hmsg⟩ := h e List.mem_cons_self
    rw [List.cons_append, appState, he, ih fun e' he' => h e' (List.mem_cons_of_mem _ he')]
    simp [hmsg]

/-- Reading changes nothing of what the log says. -/
theorem Grown.appState_eq {s s' : Board} (h : Grown Op.IsRead s s') :
    appState L s'.log = appState L s.log := by
  obtain ⟨es, hes, hA⟩ := h
  rw [hes, appState_append fun e he => (hA e he).silent]

theorem Op.OnPart.not_print {part : Option FalPartition} {o : Op} (h : o.OnPart part) (msg : Msg) :
    o ≠ .print msg := by
  rintro rfl
  exact h

/-- Work on a partition other than the app leaves the app alone. -/
theorem Op.OnPart.silent {p : FalPartition} {o : Op} (h : o.OnPart (some p)) (hp : p ∈ L.parts)
    (hne : p.name ≠ qbootAppPartName) : o.Silent L := by
  refine ⟨?_, h.not_print⟩
  cases o with
  | erase dev offset size =>
    obtain ⟨_, hp', rfl, hlo, hhi⟩ := h
    cases hp'
    rw [Op.erasesApp]
    split
    · rename_i q hq
      refine decide_eq_false ?_
      rintro ⟨hd, hlo', hhi'⟩
      have hpq : p ≠ q := fun heq => hne (heq ▸ name_of_find hq)
      have := (L.apart_of_ne hp (mem_of_find hq) hpq).2 hd
      omega
    · rfl
  | _ => rfl

/-! ## Updates in the log -/

variable {env : Env} {s : Board}

/-- Loads leave flash and log as they say nothing about the app. -/
theorem wp_loadFlash {addr size : ℕ} {Q : List UInt8 → Board → Prop}
    {E : Option Halt → Board → Prop} (hcut : (∃ t o, (env t o).cut ≠ none) → ∀ s', E none s')
    (hQ : ∀ s', s'.flash = s.flash → appState L s'.log = appState L s.log →
      Q (Nor.read s.flash .onchip addr size) s') :
    (loadFlash addr size).wp (world L env) Q E s := by
  refine (@Prog.wp_ask Op Op.Ans Halt Board _ _ _ (Op.load addr size) Q).2 ?_
  rw [world]
  cases hc : (env s.tick (.load addr size)).cut with
  | none =>
    refine hQ _ rfl ?_
    rw [appState]
    simp [Op.erasesApp]
  | some g => exact hcut ⟨_, _, by rw [hc]; exact Option.some_ne_none g⟩ _

/-- The jump looks at the vector words alone. -/
theorem wp_qbtJumpToApp {E : Option Halt → Board → Prop}
    (hcut : (∃ t o, (env t o).cut ≠ none) → ∀ s', E none s') :
    qbtJumpToApp.wp (world L env)
      (fun jumped s' => jumped = bootable s.flash ∧ s'.flash = s.flash ∧
        appState L s'.log = appState L s.log) E s := by
  rw [qbtJumpToApp, Prog.wp_bind]
  refine wp_loadFlash hcut fun s₁ hm₁ hl₁ => ?_
  rw [Prog.wp_bind]
  refine wp_loadFlash hcut fun s₂ hm₂ hl₂ => ?_
  exact ⟨by rw [hm₁, bootable], hm₂.trans hm₁, hl₂.trans hl₁⟩

/-- The boot that skips the shell with the key up. -/
def plainBoot : BootInput := ⟨true, false, false, false, false⟩

/-- A legitimate initial stack pointer and reset handler. -/
def vectorWords : List UInt8 := [0x00, 0x00, 0x01, 0x20, 0x01, 0x01, 0x02, 0x08]

/-- The header of an uncompressed app package with a body of the given check sum. -/
def appHdr (body : List UInt8) (rawSize : ℕ) : RblHdr :=
  ⟨0, 0, qbootAppPartName, [], [], (crc32Cal body).toNat, 0, rawSize, body.length⟩

/-- The factory partition of the board. -/
def factoryPart : FalPartition := ⟨qbootFactoryPartName, .nor, 7 * 1024 * 1024, 1 * 1024 * 1024⟩

end RtThreadOta
