import RtThreadOta.Library.Words
import RtThreadOta.Syswatch.Kernel

/-!
# The system watcher (`syswatch.c`)

The watcher in mode 2, over the kernel. It is advanced from two sides: the scheduler calls its hook at
every switch, and its own thread takes a round every second. `step` gives what each event of the system
does; the order of the events is anyone's.
-/

namespace RtThreadOta.Syswatch

open Words

/-- `SYSWATCH_EXCEPT_TIMEOUT` -/
def syswatchExceptTimeout : ℕ := 60

/-- `SYSWATCH_EXCEPT_CONFIRM_TMO` -/
def syswatchExceptConfirmTmo : ℕ := 15

/-- `SYSWATCH_EXCEPT_RESUME_DLY` -/
def syswatchExceptResumeDly : ℕ := 15

/-- `thread_msg_t` -/
structure ThreadMsg where
  thread : ℕ
  entry : ℕ
  parameter : ℕ
  stackAddr : ℕ
  stackSize : ℕ
  initTick : ℕ
  priority : ℕ
  name : List UInt8
deriving DecidableEq, Repr

/-- `syswatch_data_t` -/
structure SwData where
  secCnt : ℕ
  opStep : ℕ
  lowestThread : Option ℕ
  waitResumeSlist : List ThreadMsg
deriving DecidableEq, Repr

/-- The initial `sw_data`. -/
def SwData.initial : SwData := ⟨0, 0, none, []⟩

/-- The system: the kernel and the watcher. The rest says what happened: the threads handled so far and
those started again, each with its address, and the rounds of the watcher's thread. -/
structure State where
  kernel : Kernel
  sw : SwData
  handled : List (ℕ × Thread)
  restarted : List (ℕ × Thread)
  rounds : ℕ

/-! ## The hook -/

/-- `syswatch_thread_switch_hook` -/
def syswatchThreadSwitchHook (k : Kernel) (fromThread toThread : ℕ) (sw : SwData) : SwData :=
  if (k.tcb fromThread).currentPriority > (k.tcb toThread).currentPriority then sw
  else if (k.tcb toThread).currentPriority = rtThreadPriorityMax - 1 then
    match sw.opStep with
    | 0 => { sw with secCnt := 0 }
    | 1 => { sw with secCnt := 0, opStep := if sw.waitResumeSlist ≠ [] then 2 else 0 }
    | _ => sw
  else if sw.opStep ≠ 1 then sw
  else
    match sw.lowestThread with
    | none => { sw with lowestThread := some toThread }
    | some lowest =>
      if (k.tcb toThread).currentPriority > (k.tcb lowest).currentPriority then
        { sw with lowestThread := some toThread }
      else if (k.tcb toThread).currentPriority < (k.tcb lowest).currentPriority then sw
      else if (k.tcb toThread).currentPriority = (k.tcb fromThread).currentPriority ∧
          (k.tcb fromThread).stat = .running then
        { sw with lowestThread := some fromThread }
      else sw

/-- What the hook can do: the count of the seconds begins again, or an exception is over, or another
thread is the lowest one. -/
theorem hook_cases {k : Kernel} {fromThread : ℕ} (toThread : ℕ) (sw : SwData)
    (hfrom : (k.tcb fromThread).currentPriority < rtThreadPriorityMax) :
    (sw.opStep ≠ 1 ∧ ∃ c ≤ sw.secCnt,
      syswatchThreadSwitchHook k fromThread toThread sw = { sw with secCnt := c }) ∨
    (sw.opStep = 1 ∧ (k.tcb toThread).currentPriority = rtThreadPriorityMax - 1 ∧
      syswatchThreadSwitchHook k fromThread toThread sw =
        { sw with secCnt := 0, opStep := if sw.waitResumeSlist ≠ [] then 2 else 0 }) ∨
    (sw.opStep = 1 ∧ (k.tcb toThread).currentPriority ≠ rtThreadPriorityMax - 1 ∧ ∃ l,
      syswatchThreadSwitchHook k fromThread toThread sw = { sw with lowestThread := l } ∧
      (l = some toThread ∨
        (l = some fromThread ∧ (k.tcb fromThread).stat = .running ∧
          (k.tcb toThread).currentPriority = (k.tcb fromThread).currentPriority) ∨
        (l = sw.lowestThread ∧ ∀ t, sw.lowestThread = some t →
          ¬ ((k.tcb fromThread).currentPriority ≤ (k.tcb toThread).currentPriority ∧
            (k.tcb t).currentPriority < (k.tcb toThread).currentPriority)))) := by
  have hmax : rtThreadPriorityMax = 32 := rfl
  unfold syswatchThreadSwitchHook
  by_cases hstep : sw.opStep = 1
  · refine Or.inr ?_
    by_cases hidle : (k.tcb toThread).currentPriority = rtThreadPriorityMax - 1
    · refine Or.inl ⟨hstep, hidle, ?_⟩
      rw [if_neg (by omega), if_pos hidle, hstep]
      rfl
    refine Or.inr ⟨hstep, hidle, ?_⟩
    rw [if_neg hidle, if_neg (not_not.2 hstep)]
    by_cases hhigher : (k.tcb fromThread).currentPriority > (k.tcb toThread).currentPriority
    · rw [if_pos hhigher]
      exact ⟨sw.lowestThread, rfl, Or.inr (Or.inr ⟨rfl, fun t _ h => by omega⟩)⟩
    rw [if_neg hhigher]
    cases hlowest : sw.lowestThread with
    | none => exact ⟨_, rfl, Or.inl rfl⟩
    | some t =>
      have hsame : sw = { sw with lowestThread := some t } := by rw [← hlowest]
      simp only
      by_cases hlower : (k.tcb toThread).currentPriority > (k.tcb t).currentPriority
      · rw [if_pos hlower]
        exact ⟨_, rfl, Or.inl rfl⟩
      -- what stays is not less urgent than the thread that runs next
      have hstays : ∀ t', some t = some t' →
          ¬ ((k.tcb fromThread).currentPriority ≤ (k.tcb toThread).currentPriority ∧
            (k.tcb t').currentPriority < (k.tcb toThread).currentPriority) := by
        rintro t' h ⟨-, hless⟩
        obtain rfl := Option.some.inj h
        exact hlower hless
      rw [if_neg hlower]
      by_cases hhigher' : (k.tcb toThread).currentPriority < (k.tcb t).currentPriority
      · rw [if_pos hhigher']
        exact ⟨some t, hsame, Or.inr (Or.inr ⟨rfl, hstays⟩)⟩
      rw [if_neg hhigher']
      by_cases hyield : (k.tcb toThread).currentPriority = (k.tcb fromThread).currentPriority ∧
          (k.tcb fromThread).stat = .running
      · rw [if_pos hyield]
        exact ⟨_, rfl, Or.inr (Or.inl ⟨rfl, hyield.2, hyield.1⟩)⟩
      · rw [if_neg hyield]
        exact ⟨some t, hsame, Or.inr (Or.inr ⟨rfl, hstays⟩)⟩
  · refine Or.inl ⟨hstep, ?_⟩
    have hkept : ∃ c ≤ sw.secCnt, sw = { sw with secCnt := c } := ⟨sw.secCnt, Nat.le_refl _, rfl⟩
    rw [if_pos hstep]
    by_cases hhigher : (k.tcb fromThread).currentPriority > (k.tcb toThread).currentPriority
    · rw [if_pos hhigher]
      exact hkept
    rw [if_neg hhigher]
    by_cases hidle : (k.tcb toThread).currentPriority = rtThreadPriorityMax - 1
    · rw [if_pos hidle]
      split
      · exact ⟨0, Nat.zero_le _, rfl⟩
      · exact absurd ‹_› hstep
      · exact hkept
    · rw [if_neg hidle]
      exact hkept

/-! ## A round of the watcher's thread -/

/-- The message that is saved of a thread. -/
def Thread.msg (t : Thread) (thread : ℕ) : ThreadMsg where
  thread := thread
  entry := t.entry
  parameter := t.parameter
  stackAddr := t.stackAddr
  stackSize := t.stackSize
  initTick := t.initTick
  -- `current_priority` in this version of the kernel
  priority := t.currentPriority
  name := t.name

/-- `syswatch_thread_except_resolve_resume_save_msg` -/
def resumeSaveMsg (heap : Answers) (thread : ℕ) (s : State) : State :=
  match rtMalloc heap s.kernel with
  | (none, _, k) => { s with kernel := k }
  | (some _, _, k) =>
    { s with
      kernel := k
      sw := { s.sw with waitResumeSlist := s.sw.waitResumeSlist ++ [(k.tcb thread).msg thread] } }

/-- `syswatch_thread_except_resolve_kill` -/
def resolveKill (thread : ℕ) (s : State) : Option State := do
  let k ←
    if (s.kernel.tcb thread).isSystemobject then rtThreadDetach s.kernel thread
    else rtThreadDelete s.kernel thread
  some { s with kernel := k }

/-- `syswatch_thread_except_resolve` -/
def syswatchThreadExceptResolve (heap : Answers) (thread : Option ℕ) (s : State) : Option State :=
  match thread with
  | none => some s
  | some thread =>
    if thread = s.kernel.current then some s
    else
      resolveKill thread (resumeSaveMsg heap thread
        { s with handled := s.handled ++ [(thread, s.kernel.tcb thread)] })

/-- `syswatch_thread_except_resolve_resume_from_msg`; the thread's address is `none` when it could not be
created. -/
def resumeFromMsg (heap : Answers) (msg : ThreadMsg) (k : Kernel) :
    Option (Option ℕ × Answers × Kernel) :=
  if (k.tcb msg.thread).isSystemobject then do
    let k ← rtThreadInit k msg.thread msg.name msg.entry msg.parameter msg.stackAddr msg.stackSize
      msg.priority msg.initTick
    let k ← rtThreadStartup k msg.thread
    some (some msg.thread, heap, k)
  else do
    let (thread, heap, k) ← rtThreadCreate heap k msg.name msg.entry msg.parameter msg.stackSize
      msg.priority msg.initTick
    match thread with
    | none => some (none, heap, k)
    | some thread => do
      let k ← rtThreadStartup k thread
      some (some thread, heap, k)

/-- The loop of `syswatch_thread_except_resolve_resume_all` over the messages on the list. -/
def resumeAll : List ThreadMsg → Answers → State → Option State
  | [], _, s => some s
  | msg :: msgs, heap, s => do
    let (thread, heap, k) ← resumeFromMsg heap msg s.kernel
    resumeAll msgs heap
      { s with
        kernel := k
        sw := { s.sw with waitResumeSlist := msgs }
        restarted := s.restarted ++ (thread.map fun a => (a, k.tcb a)).toList }

/-- `syswatch_check_timeout` -/
def syswatchCheckTimeout (tmoS : ℕ) (sw : SwData) : Bool × SwData :=
  let secCnt := (sw.secCnt + 1) % 65536
  if secCnt < tmoS then (false, { sw with secCnt := secCnt }) else (true, { sw with secCnt := 0 })

/-- `syswatch_fsm` -/
def syswatchFsm (heap : Answers) (s : State) : Option State :=
  match s.sw.opStep with
  | 0 =>
    match syswatchCheckTimeout syswatchExceptTimeout s.sw with
    | (false, sw) => some { s with sw := sw }
    | (true, sw) => some { s with sw := { sw with opStep := 1, lowestThread := none } }
  | 1 =>
    match syswatchCheckTimeout syswatchExceptConfirmTmo s.sw with
    | (false, sw) => some { s with sw := sw }
    | (true, sw) => do
      let s ← syswatchThreadExceptResolve heap sw.lowestThread { s with sw := sw }
      some { s with sw := { s.sw with lowestThread := none } }
  | 2 =>
    match syswatchCheckTimeout syswatchExceptResumeDly s.sw with
    | (false, sw) => some { s with sw := sw }
    | (true, sw) => do
      let s ← resumeAll sw.waitResumeSlist heap { s with sw := sw }
      some { s with sw := { s.sw with opStep := 0 } }
  | _ => some { s with sw := { s.sw with secCnt := 0, opStep := 0 } }

/-- A round of `syswatch_thread_entry` behind its delay, up to the next one. -/
def syswatchRound (heap : Answers) (s : State) : Option State := do
  let s ← syswatchFsm heap s
  some { s with
    kernel := s.kernel.setStat s.kernel.watcher .suspend
    rounds := s.rounds + 1 }

/-! ## The events of the system -/

/-- What can happen next. -/
inductive Action where
  /-- what a thread waits for happens, or its wait runs out -/
  | resume (thread : ℕ)
  /-- the running thread begins to wait -/
  | suspend
  /-- the running thread returns from its entry -/
  | exit
  /-- `rt_schedule` switches to another thread -/
  | schedule (toThread : ℕ)
  /-- the watcher's thread, woken after a second -/
  | round (heap : Answers)
  /-- the idle thread removes a thread that ended -/
  | reap
  /-- free memory is handed out and written -/
  | reuse (wrote : ℕ → Option Thread)

/-- The running thread may do what threads of the application do. -/
def Kernel.AppRuns (k : Kernel) : Prop :=
  k.current ≠ k.idle ∧ k.current ≠ k.watcher ∧ (k.tcb k.current).stat = .running

instance (k : Kernel) : Decidable k.AppRuns := inferInstanceAs (Decidable (_ ∧ _ ∧ _))

/-- What an event does, `none` when it cannot happen or fails an assertion. -/
def step (s : State) : Action → Option State
  | .resume thread =>
    if thread ∈ s.kernel.objects ∧ (s.kernel.tcb thread).stat = .suspend then
      some { s with kernel := rtScheduleInsertThread s.kernel thread }
    else none
  | .suspend =>
    if s.kernel.AppRuns then some { s with kernel := s.kernel.setStat s.kernel.current .suspend }
    else none
  | .exit =>
    if s.kernel.AppRuns then some { s with kernel := threadClose s.kernel s.kernel.current } else none
  | .schedule toThread =>
    if s.kernel.SwitchesTo toThread then
      some { s with
        kernel := rtScheduleSwitch s.kernel toThread
        sw := syswatchThreadSwitchHook s.kernel s.kernel.current toThread s.sw }
    else none
  | .round heap =>
    if s.kernel.current = s.kernel.watcher ∧ (s.kernel.tcb s.kernel.watcher).stat = .running ∧
        heap.Valid s.kernel then
      syswatchRound heap s
    else none
  | .reap =>
    if s.kernel.current = s.kernel.idle then some { s with kernel := rtDefunctExecute s.kernel } else none
  | .reuse wrote => some { s with kernel := s.kernel.overwrite wrote }

end RtThreadOta.Syswatch
