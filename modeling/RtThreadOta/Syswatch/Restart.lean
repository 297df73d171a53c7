import Mathlib.Logic.Relation
import RtThreadOta.Syswatch.Watch

/-!
# What the watcher restarts

In a run in which every step is favourable the watcher restarts exactly the threads it stopped. A step
is not when the heap is out of memory, when the thread to be handled is a static object, whose type is
reset before it is looked at again, when the lowest thread ends and one of its priority or a higher one
takes over, or when a new owner of freed memory leaves the mark of a static object in it.
-/

namespace RtThreadOta.Syswatch

/-! ## What the watcher owes -/

/-- A thread that was handled and one that was started, each with its address: the second is the first
again. -/
structure RestartOf (handled restarted : ℕ × Thread) : Prop where
  entry : restarted.2.entry = handled.2.entry
  parameter : restarted.2.parameter = handled.2.parameter
  stackSize : restarted.2.stackSize = handled.2.stackSize
  priority : restarted.2.currentPriority = handled.2.currentPriority
  inPlace : handled.2.isSystemobject = true →
    restarted.1 = handled.1 ∧ restarted.2.stackAddr = handled.2.stackAddr

/-- Every thread handled was alive, is handled only once, and was restarted, or else waits on the list
with its message; nothing waits when the watcher waits for an exception. -/
structure RestartsTheStopped (s : State) : Prop where
  alive : ∀ h ∈ s.handled, h.2.getType = rtObjectClassThread ∧ h.2.stat ≠ .close
  once : (s.handled.map fun h => h.2.start).Nodup
  restarted : List.Forall₂ RestartOf (s.handled.take s.restarted.length) s.restarted
  recorded : s.sw.waitResumeSlist =
    (s.handled.drop s.restarted.length).map fun h => h.2.msg h.1
  waiting : s.sw.opStep = 0 → s.sw.waitResumeSlist = []

/-! ## Favourable steps -/

/-- What is written leaves no mark of a static object at an address. -/
def Spares (wrote : ℕ → Option Thread) (a : ℕ) : Prop := ∀ t ∈ wrote a, t.isSystemobject = false

instance (wrote : ℕ → Option Thread) (a : ℕ) : Decidable (Spares wrote a) :=
  inferInstanceAs (Decidable (∀ t ∈ wrote a, _))

/-- What is written spares the threads that wait to be restarted. -/
def SparesWaiting (sw : SwData) (wrote : ℕ → Option Thread) : Prop :=
  ∀ msg ∈ sw.waitResumeSlist, Spares wrote msg.thread

instance (sw : SwData) (wrote : ℕ → Option Thread) : Decidable (SparesWaiting sw wrote) :=
  inferInstanceAs (Decidable (∀ msg ∈ sw.waitResumeSlist, _))

/-- The thread that the next round handles. -/
def State.toResolve (s : State) : Option ℕ :=
  if s.sw.opStep = 1 ∧ (syswatchCheckTimeout syswatchExceptConfirmTmo s.sw).1 = true ∧
      s.sw.lowestThread ≠ some s.kernel.current then s.sw.lowestThread
  else none

/-- The requests of the next round to the heap: a message, or control blocks and stacks. -/
def State.requests (s : State) : ℕ :=
  if s.toResolve.isSome then 1
  else if s.sw.opStep = 2 ∧ (syswatchCheckTimeout syswatchExceptResumeDly s.sw).1 = true then
    2 * s.sw.waitResumeSlist.length
  else 0

/-- The steps that lead the watcher nowhere wrong. -/
def Favourable (s : State) : Action → Prop
  | .schedule toThread =>
    s.sw.opStep = 1 ∧ s.sw.lowestThread = some s.kernel.current ∧
        (s.kernel.tcb s.kernel.current).stat = .close →
      (s.kernel.tcb s.kernel.current).currentPriority < (s.kernel.tcb toThread).currentPriority
  | .round heap =>
    (∀ t ∈ s.toResolve, (s.kernel.tcb t).isSystemobject = false) ∧
      (∀ i < s.requests, (heap.getD i none).isSome = true) ∧
      ∀ g ∈ heap.reduceOption, SparesWaiting s.sw g.wrote
  | .reuse wrote => SparesWaiting s.sw wrote
  | _ => True

instance (s : State) (act : Action) : Decidable (Favourable s act) :=
  match act with
  | .resume _ => inferInstanceAs (Decidable True)
  | .suspend => inferInstanceAs (Decidable True)
  | .exit => inferInstanceAs (Decidable True)
  | .schedule _ => inferInstanceAs (Decidable (_ ∧ _ ∧ _ → _))
  | .round heap => inferInstanceAs (Decidable ((∀ t ∈ s.toResolve, _) ∧ (∀ i < s.requests, _) ∧
      ∀ g ∈ heap.reduceOption, _))
  | .reap => inferInstanceAs (Decidable True)
  | .reuse _ => inferInstanceAs (Decidable (SparesWaiting _ _))

/-- A favourable step from one state to another. -/
def FavourableStep (s s' : State) : Prop := ∃ act, Favourable s act ∧ step s act = some s'

/-- The watcher has just begun, and nothing ended or waits to be removed. -/
structure Begins (s : State) : Prop where
  kernel : Sound s.kernel
  sw : s.sw = SwData.initial
  handled : s.handled = []
  restarted : s.restarted = []

/-! ## The invariant -/

/-- What holds between favourable steps. -/
structure Inv (s : State) : Prop where
  kernel : Sound s.kernel
  restarts : RestartsTheStopped s
  opStep_le : s.sw.opStep ≤ 2
  secCnt_lt : s.sw.secCnt < syswatchExceptTimeout
  resuming : s.sw.opStep = 2 → s.sw.secCnt < syswatchExceptResumeDly
  -- a thread that ends is still the lowest one until the next switch
  lowest : s.sw.opStep = 1 → ∀ t, s.sw.lowestThread = some t → t ∈ s.kernel.objects ∧
    (s.kernel.tcb t).currentPriority ≠ rtThreadPriorityMax - 1 ∧
    ((s.kernel.tcb t).stat = .close → t = s.kernel.current)
  awake : s.sw.opStep = 1 → s.kernel.current ≠ s.kernel.idle
  dynamic : ∀ msg ∈ s.sw.waitResumeSlist, (s.kernel.tcb msg.thread).isSystemobject = false
  running : ∀ a ∈ s.kernel.objects, (s.kernel.tcb a).stat ≠ .close →
    ∀ h ∈ s.handled, h.2.start ≠ (s.kernel.tcb a).start
  handled_lt : ∀ h ∈ s.handled, h.2.start < s.kernel.starts
  handled_priority : ∀ h ∈ s.handled, h.2.currentPriority < rtThreadPriorityMax
  handled_dynamic : ∀ h ∈ s.handled, h.2.isSystemobject = false

variable {s s' : State} {k k' : Kernel} {sw : SwData} {a toThread : ℕ} {stat : Stat}

theorem Begins.inv (h : Begins s) : Inv s := by
  obtain ⟨kernel, sw, handled, restarted, rounds⟩ := s
  obtain ⟨hkernel, rfl, rfl, rfl⟩ := h
  constructor
  · exact hkernel
  · constructor
    · intro h hh
      cases hh
    · exact List.nodup_nil
    · exact List.Forall₂.nil
    · rfl
    · intro _
      rfl
  · exact Nat.zero_le 2
  · exact Nat.succ_pos 59
  · intro h
    cases h
  · intro h
    cases h
  · intro h
    cases h
  · intro msg hmsg
    cases hmsg
  · intro a _ _ h hh
    cases hh
  · intro h hh
    cases hh
  · intro h hh
    cases hh
  · intro h hh
    cases hh

/-- Events that only the scheduler sees keep the invariant. -/
theorem Inv.of_same (h : Inv s) (hkernel : Sound k') (hsame : SameThreads s.kernel k')
    (hclose : ∀ a ∈ s.kernel.objects, (s.kernel.tcb a).stat = .close → (k'.tcb a).stat = .close)
    (hcurrent : k'.current = s.kernel.current)
    (hlowest : s.sw.opStep = 1 → ∀ t ∈ s.kernel.objects, s.sw.lowestThread = some t →
      (k'.tcb t).stat = .close → (s.kernel.tcb t).stat = .close ∨ t = k'.current)
    (hdynamic : ∀ msg ∈ s.sw.waitResumeSlist, (k'.tcb msg.thread).isSystemobject = false) :
    Inv { s with kernel := k' } where
  kernel := hkernel
  restarts := ⟨h.restarts.alive, h.restarts.once, h.restarts.restarted, h.restarts.recorded,
    h.restarts.waiting⟩
  opStep_le := h.opStep_le
  secCnt_lt := h.secCnt_lt
  resuming := h.resuming
  lowest := by
    intro hstep t ht
    obtain ⟨hmem, hpriority, hended⟩ := h.lowest hstep t ht
    refine ⟨?_, ?_, ?_⟩
    · show t ∈ k'.objects
      rw [hsame.objects]
      exact hmem
    · show (k'.tcb t).currentPriority ≠ _
      rw [hsame.priority_eq hmem]
      exact hpriority
    · intro hstat
      rcases hlowest hstep t hmem ht hstat with hold | hnow
      · exact (hended hold).trans hcurrent.symm
      · exact hnow
  awake := by
    intro hstep
    show k'.current ≠ k'.idle
    rw [hcurrent, hsame.idle]
    exact h.awake hstep
  dynamic := hdynamic
  running := by
    intro a ha hopen x hx
    have hmem : a ∈ s.kernel.objects := hsame.objects ▸ ha
    show x.2.start ≠ (k'.tcb a).start
    rw [hsame.start_eq hmem]
    exact h.running a hmem (fun hstat => hopen (hclose a hmem hstat)) x hx
  handled_lt := by
    intro x hx
    show x.2.start < k'.starts
    rw [hsame.starts]
    exact h.handled_lt x hx
  handled_priority := h.handled_priority
  handled_dynamic := h.handled_dynamic

/-- Any event that moves an open thread to an open state keeps the invariant. -/
theorem Inv.setStat (h : Inv s) (ha : (s.kernel.tcb a).stat ≠ .close) (hstat : stat ≠ .close) :
    Inv { s with kernel := s.kernel.setStat a stat } := by
  apply h.of_same (h.kernel.setStat ha hstat) (SameThreads.setStat s.kernel a stat)
  · intro b _ hb
    rw [Kernel.tcb_setStat_of_ne (by rintro rfl; exact ha hb)]
    exact hb
  · rfl
  · intro _ t _ _ hclose
    rw [Kernel.stat_setStat] at hclose
    split at hclose
    · exact absurd hclose hstat
    · exact Or.inl hclose
  · intro msg hmsg
    rw [Kernel.isSystemobject_setStat]
    exact h.dynamic msg hmsg

/-- The running thread ends. -/
theorem Inv.exit (h : Inv s) (hruns : s.kernel.AppRuns) :
    Inv { s with kernel := threadClose s.kernel s.kernel.current } := by
  obtain ⟨hidle, hwatcher, hrunning⟩ := hruns
  have hopen : (s.kernel.tcb s.kernel.current).stat ≠ .close := by
    rw [hrunning]
    decide
  apply h.of_same (h.kernel.threadClose h.kernel.current hopen hidle hwatcher)
    (SameThreads.threadClose s.kernel s.kernel.current)
  · intro b _ hb
    show ((s.kernel.setStat s.kernel.current .close).tcb b).stat = .close
    rw [Kernel.stat_setStat]
    split
    · rfl
    · exact hb
  · rfl
  · intro _ t _ _ hclose
    have hclose : ((s.kernel.setStat s.kernel.current .close).tcb t).stat = .close := hclose
    rw [Kernel.stat_setStat] at hclose
    split at hclose
    · exact Or.inr ‹_›
    · exact Or.inl hclose
  · intro msg hmsg
    show ((s.kernel.setStat s.kernel.current .close).tcb msg.thread).isSystemobject = false
    rw [Kernel.isSystemobject_setStat]
    exact h.dynamic msg hmsg

/-- Free memory is written. -/
theorem Inv.overwrite {wrote : ℕ → Option Thread} (h : Inv s) (hspares : SparesWaiting s.sw wrote) :
    Inv { s with kernel := s.kernel.overwrite wrote } := by
  apply h.of_same (h.kernel.overwrite wrote) (SameThreads.overwrite s.kernel wrote)
  · intro a ha hclose
    rw [Kernel.tcb_overwrite_of_mem ha]
    exact hclose
  · rfl
  · intro _ t ht _ hclose
    rw [Kernel.tcb_overwrite_of_mem ht] at hclose
    exact Or.inl hclose
  · intro msg hmsg
    rcases Kernel.tcb_overwrite s.kernel wrote msg.thread with heq | hwrote
    · rw [heq]
      exact h.dynamic msg hmsg
    · exact hspares msg hmsg _ hwrote

/-- The idle thread runs only while no exception is confirmed. -/
theorem Inv.reap (h : Inv s) (hidle : s.kernel.current = s.kernel.idle) :
    Inv { s with kernel := rtDefunctExecute s.kernel } where
  kernel := h.kernel.rtDefunctExecute hidle
  restarts := ⟨h.restarts.alive, h.restarts.once, h.restarts.restarted, h.restarts.recorded,
    h.restarts.waiting⟩
  opStep_le := h.opStep_le
  secCnt_lt := h.secCnt_lt
  resuming := h.resuming
  lowest := fun hstep => absurd hidle (h.awake hstep)
  awake := fun hstep => absurd hidle (h.awake hstep)
  dynamic := fun msg hmsg => isSystemobject_rtDefunctExecute (h.dynamic msg hmsg)
  running := by
    intro a ha hopen x hx
    obtain ⟨hmem, hsame⟩ := h.kernel.of_mem_rtDefunctExecute ha
    have hopen : ((rtDefunctExecute s.kernel).tcb a).stat ≠ .close := hopen
    show x.2.start ≠ ((rtDefunctExecute s.kernel).tcb a).start
    rw [hsame] at hopen ⊢
    exact h.running a hmem hopen x hx
  handled_lt := by
    intro x hx
    have hstarts : (rtDefunctExecute s.kernel).starts = s.kernel.starts := by
      unfold rtDefunctExecute
      split
      · rfl
      · split
        · rfl
        · rfl
    show x.2.start < (rtDefunctExecute s.kernel).starts
    rw [hstarts]
    exact h.handled_lt x hx
  handled_priority := h.handled_priority
  handled_dynamic := h.handled_dynamic

/-! ### A switch -/

/-- A switch ends no thread, and wakes none that ended. -/
theorem stat_rtScheduleSwitch (hready : (k.tcb toThread).stat = .ready) :
    ((rtScheduleSwitch k toThread).tcb a).stat = .close ↔ (k.tcb a).stat = .close := by
  have hclose : (k.tcb toThread).stat ≠ .close := by
    rw [hready]
    decide
  unfold rtScheduleSwitch
  simp only
  rw [Kernel.stat_setStat]
  by_cases ha : a = toThread
  · rw [if_pos ha, ha]
    exact iff_of_false (by decide) hclose
  rw [if_neg ha]
  split
  · rename_i hrunning
    rw [Kernel.stat_setStat]
    by_cases hcur : a = k.current
    · rw [if_pos hcur, hcur, hrunning]
      exact iff_of_false (by decide) (by decide)
    · rw [if_neg hcur]
  · exact Iff.rfl

theorem isSystemobject_rtScheduleSwitch :
    ((rtScheduleSwitch k toThread).tcb a).isSystemobject = (k.tcb a).isSystemobject := by
  unfold rtScheduleSwitch
  simp only
  rw [Kernel.isSystemobject_setStat]
  split
  · rw [Kernel.isSystemobject_setStat]
  · rfl

/-- A switch keeps the invariant with whatever the hook makes of the watcher's data, as long as the
lowest thread is a live one. -/
theorem Inv.switch (h : Inv s) (hswitch : s.kernel.SwitchesTo toThread)
    (hmsgs : sw.waitResumeSlist = s.sw.waitResumeSlist) (hle : sw.opStep ≤ 2)
    (hcnt : sw.secCnt < syswatchExceptTimeout)
    (hresuming : sw.opStep = 2 → sw.secCnt < syswatchExceptResumeDly)
    (hwaiting : sw.opStep = 0 → sw.waitResumeSlist = [])
    (hlowest : sw.opStep = 1 → toThread ≠ s.kernel.idle ∧ ∀ t, sw.lowestThread = some t →
      t ∈ s.kernel.objects ∧ (s.kernel.tcb t).currentPriority ≠ rtThreadPriorityMax - 1 ∧
      (s.kernel.tcb t).stat ≠ .close) :
    Inv { s with kernel := rtScheduleSwitch s.kernel toThread, sw := sw } := by
  have hsame := SameThreads.rtScheduleSwitch s.kernel toThread
  have hready := hswitch.2.2.1
  constructor
  · exact h.kernel.rtScheduleSwitch hswitch
  · exact ⟨h.restarts.alive, h.restarts.once, h.restarts.restarted,
      hmsgs.trans h.restarts.recorded, hwaiting⟩
  · exact hle
  · exact hcnt
  · exact hresuming
  · intro hstep t ht
    obtain ⟨hmem, hpriority, hopen⟩ := (hlowest hstep).2 t ht
    refine ⟨?_, ?_, ?_⟩
    · show t ∈ (rtScheduleSwitch s.kernel toThread).objects
      rw [hsame.objects]
      exact hmem
    · show ((rtScheduleSwitch s.kernel toThread).tcb t).currentPriority ≠ _
      rw [hsame.priority_eq hmem]
      exact hpriority
    · intro hclose
      exact absurd ((stat_rtScheduleSwitch hready).1 hclose) hopen
  · intro hstep
    show toThread ≠ (rtScheduleSwitch s.kernel toThread).idle
    rw [hsame.idle]
    exact (hlowest hstep).1
  · intro msg hmsg
    show ((rtScheduleSwitch s.kernel toThread).tcb msg.thread).isSystemobject = false
    rw [isSystemobject_rtScheduleSwitch]
    exact h.dynamic msg (hmsgs ▸ hmsg)
  · intro a ha hopen x hx
    have hmem : a ∈ s.kernel.objects := hsame.objects ▸ ha
    show x.2.start ≠ ((rtScheduleSwitch s.kernel toThread).tcb a).start
    rw [hsame.start_eq hmem]
    exact h.running a hmem (fun hclose => hopen ((stat_rtScheduleSwitch hready).2 hclose)) x hx
  · intro x hx
    show x.2.start < (rtScheduleSwitch s.kernel toThread).starts
    rw [hsame.starts]
    exact h.handled_lt x hx
  · exact h.handled_priority
  · exact h.handled_dynamic

theorem Inv.schedule (h : Inv s) (hswitch : s.kernel.SwitchesTo toThread)
    (hfavourable : Favourable s (.schedule toThread)) :
    Inv { s with
      kernel := rtScheduleSwitch s.kernel toThread
      sw := syswatchThreadSwitchHook s.kernel s.kernel.current toThread s.sw } := by
  have hidle : (s.kernel.tcb toThread).currentPriority ≠ rtThreadPriorityMax - 1 →
      toThread ≠ s.kernel.idle := by
    rintro hne rfl
    exact hne h.kernel.idle_priority
  have hopen : (s.kernel.tcb toThread).stat ≠ .close := by
    rw [hswitch.2.2.1]
    decide
  rcases hook_cases toThread s.sw (h.kernel.priority _ h.kernel.current) with
    ⟨hstep, c, hc, heq⟩ | ⟨hstep, -, heq⟩ | ⟨hstep, hnot, l, heq, hl⟩
  · rw [heq]
    apply h.switch hswitch
    · rfl
    · exact h.opStep_le
    · exact Nat.lt_of_le_of_lt hc h.secCnt_lt
    · intro hresume
      exact Nat.lt_of_le_of_lt hc (h.resuming hresume)
    · exact h.restarts.waiting
    · intro hone
      exact absurd hone hstep
  · rw [heq]
    apply h.switch hswitch
    · rfl
    · show (if s.sw.waitResumeSlist ≠ [] then 2 else 0) ≤ 2
      split <;> omega
    · exact Nat.succ_pos 59
    · intro _
      exact Nat.succ_pos 14
    · intro hzero
      have hzero : (if s.sw.waitResumeSlist ≠ [] then 2 else 0) = 0 := hzero
      by_contra hne
      rw [if_pos hne] at hzero
      cases hzero
    · intro hone
      have hone : (if s.sw.waitResumeSlist ≠ [] then 2 else 0) = 1 := hone
      split at hone <;> cases hone
  · rw [heq]
    have hlive : ∀ t, l = some t → t ∈ s.kernel.objects ∧
        (s.kernel.tcb t).currentPriority ≠ rtThreadPriorityMax - 1 ∧
        (s.kernel.tcb t).stat ≠ .close := by
      intro t ht
      rcases hl with rfl | ⟨rfl, hrunning, hsame⟩ | ⟨rfl, hstays⟩
      · obtain rfl := Option.some.inj ht
        exact ⟨hswitch.1, hnot, hopen⟩
      · obtain rfl := Option.some.inj ht
        refine ⟨h.kernel.current, hsame ▸ hnot, ?_⟩
        rw [hrunning]
        decide
      · -- had the lowest thread just ended, a less urgent one would have taken its place
        obtain ⟨hmem, hpriority, hended⟩ := h.lowest hstep t ht
        refine ⟨hmem, hpriority, ?_⟩
        intro hclose
        obtain rfl := hended hclose
        have hless := hfavourable ⟨hstep, ht, hclose⟩
        exact hstays _ ht ⟨Nat.le_of_lt hless, hless⟩
    apply h.switch hswitch
    · rfl
    · exact h.opStep_le
    · exact h.secCnt_lt
    · exact h.resuming
    · exact h.restarts.waiting
    · intro _
      exact ⟨hidle hnot, hlive⟩

/-! ### A round -/

/-- What the watcher keeps of its own may change, as long as the list does not. -/
theorem Inv.withSw (h : Inv s) (hmsgs : sw.waitResumeSlist = s.sw.waitResumeSlist)
    (hle : sw.opStep ≤ 2) (hcnt : sw.secCnt < syswatchExceptTimeout)
    (hresuming : sw.opStep = 2 → sw.secCnt < syswatchExceptResumeDly)
    (hwaiting : sw.opStep = 0 → sw.waitResumeSlist = [])
    (hlowest : sw.opStep = 1 → s.kernel.current ≠ s.kernel.idle ∧ ∀ t, sw.lowestThread = some t →
      t ∈ s.kernel.objects ∧ (s.kernel.tcb t).currentPriority ≠ rtThreadPriorityMax - 1 ∧
      ((s.kernel.tcb t).stat = .close → t = s.kernel.current)) :
    Inv { s with sw := sw } where
  kernel := h.kernel
  restarts := ⟨h.restarts.alive, h.restarts.once, h.restarts.restarted,
    hmsgs.trans h.restarts.recorded, hwaiting⟩
  opStep_le := hle
  secCnt_lt := hcnt
  resuming := hresuming
  lowest := fun hstep => (hlowest hstep).2
  awake := fun hstep => (hlowest hstep).1
  dynamic := fun msg hmsg => h.dynamic msg (hmsgs ▸ hmsg)
  running := h.running
  handled_lt := h.handled_lt
  handled_priority := h.handled_priority
  handled_dynamic := h.handled_dynamic

/-- The seconds are counted. -/
theorem Inv.count (h : Inv s) {c : ℕ} (hc : c < syswatchExceptTimeout)
    (hresuming : s.sw.opStep = 2 → c < syswatchExceptResumeDly) :
    Inv { s with sw := { s.sw with secCnt := c } } :=
  @Inv.withSw s { s.sw with secCnt := c } h rfl h.opStep_le hc hresuming h.restarts.waiting
    fun hstep => ⟨h.awake hstep, h.lowest hstep⟩

/-- No more threads are restarted than were handled. -/
theorem RestartsTheStopped.length_le (h : RestartsTheStopped s) :
    s.restarted.length ≤ s.handled.length := by
  have hlen := h.restarted.length_eq
  rw [List.length_take] at hlen
  omega

/-- What handling the lowest thread does. -/
def State.resolved (s : State) (thread : ℕ) (wrote : ℕ → Option Thread) : State :=
  { s with
    kernel := threadClose (s.kernel.overwrite wrote) thread
    sw := { s.sw with
      lowestThread := none
      waitResumeSlist := s.sw.waitResumeSlist ++ [(s.kernel.tcb thread).msg thread] }
    handled := s.handled ++ [(thread, s.kernel.tcb thread)] }

theorem syswatchThreadExceptResolve_eq {g : Grant} {heap : Answers} (h : Inv s)
    (hmem : a ∈ s.kernel.objects) (ha : a ≠ s.kernel.current)
    (hdynamic : (s.kernel.tcb a).isSystemobject = false) (hopen : (s.kernel.tcb a).stat ≠ .close) :
    (syswatchThreadExceptResolve (some g :: heap) (some a) s).map
      (fun s' => { s' with sw := { s'.sw with lowestThread := none } }) =
        some (s.resolved a g.wrote) := by
  have hsame : (s.kernel.overwrite g.wrote).tcb a = s.kernel.tcb a := Kernel.tcb_overwrite_of_mem hmem
  have htype := h.kernel.thread a hmem
  simp only [syswatchThreadExceptResolve, if_neg ha, resumeSaveMsg, rtMalloc, resolveKill, hsame,
    hdynamic, Bool.false_eq_true, if_false, rtThreadDelete, threadKill, htype, true_and, if_true,
    if_neg hopen]
  rfl

/-- A live dynamic thread is recorded, killed and counted once. -/
theorem Inv.resolved {wrote : ℕ → Option Thread} (h : Inv s) (hstep : s.sw.opStep = 1)
    (hcurrent : s.kernel.current = s.kernel.watcher) (hlowest : s.sw.lowestThread = some a)
    (ha : a ≠ s.kernel.current) (hdynamic : (s.kernel.tcb a).isSystemobject = false)
    (hspares : SparesWaiting s.sw wrote) : Inv (s.resolved a wrote) := by
  obtain ⟨hmem, hpriority, hended⟩ := h.lowest hstep a hlowest
  have hopen : (s.kernel.tcb a).stat ≠ .close := fun hclose => ha (hended hclose)
  have hidle : a ≠ s.kernel.idle := by
    rintro rfl
    exact hpriority h.kernel.idle_priority
  have hle := h.restarts.length_le
  have hover := h.overwrite hspares
  have hsame := (SameThreads.overwrite s.kernel wrote).trans
    (SameThreads.threadClose (s.kernel.overwrite wrote) a)
  have hstat : ∀ b ∈ s.kernel.objects, ((s.resolved a wrote).kernel.tcb b).stat =
      if b = a then .close else (s.kernel.tcb b).stat := by
    intro b hb
    show (((s.kernel.overwrite wrote).setStat a .close).tcb b).stat = _
    rw [Kernel.stat_setStat, Kernel.tcb_overwrite_of_mem hb]
  constructor
  · apply hover.kernel.threadClose hmem _ hidle
    · show a ≠ s.kernel.watcher
      rw [← hcurrent]
      exact ha
    · show ((s.kernel.overwrite wrote).tcb a).stat ≠ .close
      rw [Kernel.tcb_overwrite_of_mem hmem]
      exact hopen
  · constructor
    · intro x hx
      rcases List.mem_append.1 hx with hx | hx
      · exact h.restarts.alive x hx
      · obtain rfl := List.mem_singleton.1 hx
        exact ⟨h.kernel.thread a hmem, hopen⟩
    · show ((s.handled ++ [(a, s.kernel.tcb a)]).map fun x => x.2.start).Nodup
      rw [List.map_append, List.nodup_append]
      refine ⟨h.restarts.once, List.nodup_singleton _, ?_⟩
      intro start hstart start' hstart'
      obtain ⟨x, hx, rfl⟩ := List.mem_map.1 hstart
      rw [List.mem_singleton.1 hstart']
      exact h.running a hmem hopen x hx
    · show List.Forall₂ RestartOf ((s.handled ++ [(a, s.kernel.tcb a)]).take s.restarted.length)
        s.restarted
      rw [List.take_append_of_le_length hle]
      exact h.restarts.restarted
    · show s.sw.waitResumeSlist ++ [(s.kernel.tcb a).msg a] =
        ((s.handled ++ [(a, s.kernel.tcb a)]).drop s.restarted.length).map fun x => x.2.msg x.1
      rw [List.drop_append_of_le_length hle, List.map_append, ← h.restarts.recorded]
      rfl
    · intro hzero
      exact absurd (hstep.symm.trans hzero) (by decide)
  · exact h.opStep_le
  · exact h.secCnt_lt
  · exact h.resuming
  · intro _ t ht
    cases ht
  · exact h.awake
  · intro msg hmsg
    show (((s.kernel.overwrite wrote).setStat a .close).tcb msg.thread).isSystemobject = false
    rw [Kernel.isSystemobject_setStat]
    rcases List.mem_append.1 hmsg with hmsg | hmsg
    · exact hover.dynamic msg hmsg
    · rw [List.mem_singleton.1 hmsg]
      show ((s.kernel.overwrite wrote).tcb a).isSystemobject = false
      rw [Kernel.tcb_overwrite_of_mem hmem]
      exact hdynamic
  · intro b hb hbopen x hx
    have hb : b ∈ s.kernel.objects := hb
    rw [hstat b hb] at hbopen
    have hne : b ≠ a := by
      rintro rfl
      exact hbopen (if_pos rfl)
    rw [if_neg hne] at hbopen
    show x.2.start ≠ ((threadClose (s.kernel.overwrite wrote) a).tcb b).start
    rw [hsame.start_eq hb]
    rcases List.mem_append.1 hx with hx | hx
    · exact h.running b hb hbopen x hx
    · rw [List.mem_singleton.1 hx]
      exact fun heq => hne (h.kernel.start_inj b hb a hmem heq.symm)
  · intro x hx
    show x.2.start < s.kernel.starts
    rcases List.mem_append.1 hx with hx | hx
    · exact h.handled_lt x hx
    · rw [List.mem_singleton.1 hx]
      exact h.kernel.start_lt a hmem
  · intro x hx
    rcases List.mem_append.1 hx with hx | hx
    · exact h.handled_priority x hx
    · rw [List.mem_singleton.1 hx]
      exact h.kernel.priority a hmem
  · intro x hx
    rcases List.mem_append.1 hx with hx | hx
    · exact h.handled_dynamic x hx
    · rw [List.mem_singleton.1 hx]
      exact hdynamic

/-- The kernel when a thread was created from a message, with one block for it and one for its stack. -/
def Kernel.restart (k : Kernel) (msg : ThreadMsg) (g g' : Grant) : Kernel :=
  (((k.overwrite g.wrote).overwrite g'.wrote).add g.addr
    { type := rtObjectClassThread
      name := msg.name
      entry := msg.entry
      parameter := msg.parameter
      stackAddr := g'.addr
      stackSize := msg.stackSize
      initTick := msg.initTick
      currentPriority := msg.priority
      stat := .init
      start := 0 }).setStat g.addr .ready

section Restart

variable {msg : ThreadMsg} {msgs : List ThreadMsg} {g g' : Grant} {heap : Answers}

theorem resumeFromMsg_eq (hdynamic : (k.tcb msg.thread).isSystemobject = false)
    (hpriority : msg.priority < rtThreadPriorityMax) (hcurrent : g.addr ≠ k.current) :
    resumeFromMsg (some g :: some g' :: heap) msg k =
      some (some g.addr, heap, k.restart msg g g') := by
  simp only [resumeFromMsg, hdynamic, Bool.false_eq_true, if_false, rtThreadCreate, rtMalloc,
    threadInit, if_pos hpriority, Option.bind_eq_bind, Option.bind_some, rtThreadStartup]
  rw [if_pos]
  · show some (some g.addr, heap, rtScheduleInsertThread _ g.addr) = _
    unfold rtScheduleInsertThread
    rw [if_neg]
    · rfl
    · exact hcurrent
  · rw [Function.update_self]
    refine ⟨rfl, ?_⟩
    show rtObjectClassThread &&& ~~~rtObjectClassStatic = rtObjectClassThread
    decide

theorem Kernel.tcb_restart_self : (k.restart msg g g').tcb g.addr =
    { type := rtObjectClassThread
      name := msg.name
      entry := msg.entry
      parameter := msg.parameter
      stackAddr := g'.addr
      stackSize := msg.stackSize
      initTick := msg.initTick
      currentPriority := msg.priority
      stat := .ready
      start := k.starts } := by
  unfold restart
  rw [tcb_setStat_self, tcb_add_self]
  rfl

theorem Kernel.tcb_restart_of_mem {b : ℕ} (hfree : g.addr ∉ k.objects) (hb : b ∈ k.objects) :
    (k.restart msg g g').tcb b = k.tcb b := by
  have hne : b ≠ g.addr := by
    rintro rfl
    exact hfree hb
  have hfree₁ : g.addr ∉ ((k.overwrite g.wrote).overwrite g'.wrote).objects := hfree
  have hb₁ : b ∈ (k.overwrite g.wrote).objects := hb
  have hb₂ : b ∈ ((k.overwrite g.wrote).overwrite g'.wrote).objects := hb
  unfold restart
  rw [tcb_setStat_of_ne hne, tcb_add_of_mem hfree₁ hb₂, tcb_overwrite_of_mem hb₁,
    tcb_overwrite_of_mem hb]

theorem Kernel.isSystemobject_restart {b : ℕ} (hb : (k.tcb b).isSystemobject = false)
    (hg : Spares g.wrote b) (hg' : Spares g'.wrote b) :
    ((k.restart msg g g').tcb b).isSystemobject = false := by
  by_cases hne : b = g.addr
  · rw [hne, tcb_restart_self]
    show (rtObjectClassThread &&& rtObjectClassStatic != 0) = false
    decide
  · unfold restart
    rw [tcb_setStat_of_ne hne]
    unfold add
    simp only
    rw [Function.update_of_ne hne]
    rcases tcb_overwrite (k.overwrite g.wrote) g'.wrote b with heq | hwrote
    · rw [heq]
      rcases tcb_overwrite k g.wrote b with heq' | hwrote
      · rw [heq']
        exact hb
      · exact hg _ hwrote
    · exact hg' _ hwrote

theorem Sound.restart (h : Sound k) (hfree : g.addr ∉ k.objects)
    (hpriority : msg.priority < rtThreadPriorityMax) : Sound (k.restart msg g g') := by
  unfold Kernel.restart
  refine Sound.setStat (((h.overwrite _).overwrite _).add hfree ?_ hpriority) ?_ (by decide)
  · show rtObjectClassThread &&& ~~~rtObjectClassStatic = rtObjectClassThread
    decide
  · rw [Kernel.tcb_add_self]
    exact Stat.noConfusion

/-- What restarting the first thread that waits does. -/
def State.restart (s : State) (msg : ThreadMsg) (msgs : List ThreadMsg) (g g' : Grant) : State :=
  { s with
    kernel := s.kernel.restart msg g g'
    sw := { s.sw with waitResumeSlist := msgs }
    restarted := s.restarted ++ [(g.addr, (s.kernel.restart msg g g').tcb g.addr)] }

/-- The first message on the list is that of the first thread not yet restarted, and the new thread is
that one again. -/
theorem RestartsTheStopped.restart (h : RestartsTheStopped s) (hstep : s.sw.opStep = 2)
    (hdynamic : ∀ x ∈ s.handled, x.2.isSystemobject = false)
    (hmsgs : s.sw.waitResumeSlist = msg :: msgs) : RestartsTheStopped (s.restart msg msgs g g') := by
  have hrecorded := h.recorded
  rw [hmsgs] at hrecorded
  obtain ⟨x, rest, hdrop, hmsg, hrest⟩ := List.map_eq_cons_iff.1 hrecorded.symm
  have hle := h.length_le
  have hlen : (s.handled.take s.restarted.length).length = s.restarted.length := by
    rw [List.length_take]
    omega
  have hsplit : s.handled = s.handled.take s.restarted.length ++ x :: rest := by
    rw [← hdrop, List.take_append_drop]
  have hrestarted : (s.restart msg msgs g g').restarted.length =
      (s.handled.take s.restarted.length ++ [x]).length := by
    rw [List.length_append, hlen, State.restart, List.length_append]
    rfl
  have hcons : s.handled = (s.handled.take s.restarted.length ++ [x]) ++ rest := by
    rw [List.append_assoc]
    exact hsplit
  have hx : x ∈ s.handled := by
    rw [hsplit]
    exact List.mem_append_right _ List.mem_cons_self
  constructor
  · exact h.alive
  · exact h.once
  · rw [hrestarted]
    show List.Forall₂ RestartOf (s.handled.take _) (s.restarted ++ [_])
    rw [hcons, List.take_left' (by rw [← hcons])]
    refine List.rel_append h.restarted (List.Forall₂.cons ?_ List.Forall₂.nil)
    subst hmsg
    rw [Kernel.tcb_restart_self]
    refine ⟨rfl, rfl, rfl, rfl, fun hstatic => ?_⟩
    rw [hdynamic x hx] at hstatic
    cases hstatic
  · rw [hrestarted]
    show msgs = (s.handled.drop _).map _
    rw [hcons, List.drop_left' (by rw [← hcons])]
    exact hrest.symm
  · intro hzero
    exact absurd (hstep.symm.trans hzero) (by decide)

/-- A message that waits has the priority of a thread. -/
theorem Inv.waiting_priority (h : Inv s) (hmem : msg ∈ s.sw.waitResumeSlist) :
    msg.priority < rtThreadPriorityMax := by
  rw [h.restarts.recorded] at hmem
  obtain ⟨x, hx, rfl⟩ := List.mem_map.1 hmem
  exact h.handled_priority x (List.mem_of_mem_drop hx)

theorem Inv.restart (h : Inv s) (hstep : s.sw.opStep = 2)
    (hmsgs : s.sw.waitResumeSlist = msg :: msgs) (hfree : g.addr ∉ s.kernel.objects)
    (hg : SparesWaiting s.sw g.wrote) (hg' : SparesWaiting s.sw g'.wrote) :
    Inv (s.restart msg msgs g g') := by
  have hnot : s.sw.opStep ≠ 1 := by
    rw [hstep]
    decide
  have hpriority : msg.priority < rtThreadPriorityMax := by
    apply h.waiting_priority
    rw [hmsgs]
    exact List.mem_cons_self
  constructor
  · exact h.kernel.restart hfree hpriority
  · exact h.restarts.restart hstep h.handled_dynamic hmsgs
  · exact h.opStep_le
  · exact h.secCnt_lt
  · exact h.resuming
  · intro hone
    exact absurd hone hnot
  · intro hone
    exact absurd hone hnot
  · intro m hm
    have hmem : m ∈ s.sw.waitResumeSlist := by
      rw [hmsgs]
      exact List.mem_cons_of_mem _ hm
    exact Kernel.isSystemobject_restart (h.dynamic m hmem) (hg m hmem) (hg' m hmem)
  · intro b hb hopen x hx
    show x.2.start ≠ ((s.kernel.restart msg g g').tcb b).start
    have hopen : ((s.kernel.restart msg g g').tcb b).stat ≠ .close := hopen
    rcases List.mem_cons.1 hb with rfl | hb
    · rw [Kernel.tcb_restart_self]
      exact Nat.ne_of_lt (h.handled_lt x hx)
    · rw [Kernel.tcb_restart_of_mem hfree hb] at hopen ⊢
      exact h.running b hb hopen x hx
  · intro x hx
    exact Nat.lt_succ_of_lt (h.handled_lt x hx)
  · exact h.handled_priority
  · exact h.handled_dynamic

end Restart

end RtThreadOta.Syswatch
