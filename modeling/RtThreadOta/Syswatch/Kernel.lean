import Mathlib.Data.List.Nodup
import Mathlib.Logic.Function.Basic
import Mathlib.Tactic.Common

/-!
# The kernel under the watcher (`thread.c`, `object.c`, `idle.c`, `scheduler.c`)

A thread is the control block that lies at its address. The memory of a dynamic one goes back to the
heap when the idle thread deletes it; its bytes stay until the heap hands the memory out again and the new
owner writes over them. What fails an assertion of the kernel is `none`.
-/

namespace RtThreadOta.Syswatch

/-! ## Threads -/

/-- `RT_Object_Class_Thread` -/
def rtObjectClassThread : UInt8 := 0x01

/-- `RT_Object_Class_Static` -/
def rtObjectClassStatic : UInt8 := 0x80

/-- `RT_THREAD_PRIORITY_MAX` -/
def rtThreadPriorityMax : ℕ := 32

/-- `thread->stat & RT_THREAD_STAT_MASK` -/
inductive Stat where
  | init
  | ready
  | suspend
  | running
  | close
deriving DecidableEq, Repr

/-- `struct rt_thread`. The kernel does not keep `start`: it tells apart the threads that were started
in the same control block. -/
structure Thread where
  type : UInt8
  name : List UInt8
  entry : ℕ
  parameter : ℕ
  stackAddr : ℕ
  stackSize : ℕ
  initTick : ℕ
  currentPriority : ℕ
  stat : Stat
  start : ℕ
deriving DecidableEq, Repr

/-- `rt_object_is_systemobject` -/
def Thread.isSystemobject (t : Thread) : Bool := t.type &&& rtObjectClassStatic != 0

/-- `rt_object_get_type` -/
def Thread.getType (t : Thread) : UInt8 := t.type &&& ~~~rtObjectClassStatic

/-- The control blocks, and what the kernel knows of them: the registered thread objects, the running
thread, the threads that wait for the idle thread to remove them, and the two threads with a part of
their own. `heap` tells the heap's memory from that of static objects. -/
structure Kernel where
  tcb : ℕ → Thread
  objects : List ℕ
  heap : ℕ → Bool
  current : ℕ
  defunct : List ℕ
  idle : ℕ
  watcher : ℕ
  starts : ℕ

namespace Kernel

/-- Write a control block. -/
def setTcb (k : Kernel) (a : ℕ) (t : Thread) : Kernel := { k with tcb := Function.update k.tcb a t }

/-- Write `stat` of a thread. -/
def setStat (k : Kernel) (a : ℕ) (stat : Stat) : Kernel := k.setTcb a { k.tcb a with stat := stat }

/-- Memory that the heap may hand out. -/
def Free (k : Kernel) (a : ℕ) : Prop := k.heap a = true ∧ a ∉ k.objects

instance (k : Kernel) (a : ℕ) : Decidable (k.Free a) := inferInstanceAs (Decidable (_ ∧ _))

/-- Free memory with what a new owner of it writes. -/
def overwrite (k : Kernel) (wrote : ℕ → Option Thread) : Kernel :=
  { k with tcb := fun a => if k.Free a then (wrote a).getD (k.tcb a) else k.tcb a }

end Kernel

/-! ## The heap -/

/-- A block that the heap hands out, and what its owner leaves in the control blocks that lay there. -/
structure Grant where
  addr : ℕ
  wrote : ℕ → Option Thread

/-- What the heap answers to the requests to come, `none` when there is no memory. -/
abbrev Answers := List (Option Grant)

/-- The blocks handed out are free, and different ones. -/
def Answers.Valid (heap : Answers) (k : Kernel) : Prop :=
  (∀ g ∈ heap.reduceOption, k.Free g.addr) ∧ (heap.reduceOption.map Grant.addr).Nodup

instance (heap : Answers) (k : Kernel) : Decidable (heap.Valid k) :=
  inferInstanceAs (Decidable (_ ∧ _))

/-- `rt_malloc` -/
def rtMalloc : Answers → Kernel → Option ℕ × Answers × Kernel
  | [], k => (none, [], k)
  | none :: heap, k => (none, heap, k)
  | some g :: heap, k => (some g.addr, heap, k.overwrite g.wrote)

/-! ## The life of a thread -/

/-- `_thread_init` with the object registered before it. -/
def threadInit (type : UInt8) (k : Kernel) (thread : ℕ) (name : List UInt8)
    (entry parameter stackStart stackSize priority tick : ℕ) : Option Kernel :=
  if priority < rtThreadPriorityMax then
    some { k with
      tcb := Function.update k.tcb thread
        { type := type
          name := name
          entry := entry
          parameter := parameter
          stackAddr := stackStart
          stackSize := stackSize
          initTick := tick
          currentPriority := priority
          stat := .init
          start := k.starts }
      objects := thread :: k.objects
      starts := k.starts + 1 }
  else none

/-- `rt_thread_init`, which asserts that the object is not registered yet. -/
def rtThreadInit (k : Kernel) (thread : ℕ) (name : List UInt8)
    (entry parameter stackStart stackSize priority tick : ℕ) : Option Kernel :=
  if thread ∈ k.objects then none
  else threadInit (rtObjectClassThread ||| rtObjectClassStatic) k thread name entry parameter stackStart
    stackSize priority tick

/-- `rt_thread_create`; the thread's address is `none` when there was no memory for it or its stack. -/
def rtThreadCreate (heap : Answers) (k : Kernel) (name : List UInt8)
    (entry parameter stackSize priority tick : ℕ) : Option (Option ℕ × Answers × Kernel) :=
  match rtMalloc heap k with
  | (none, heap, k) => some (none, heap, k)
  | (some thread, heap, k) =>
    match rtMalloc heap k with
    | (none, heap, k) =>
      -- deleted again, as the object's allocation left it
      some (none, heap, k.setTcb thread
        { k.tcb thread with
          type := 0
          name := name
          entry := 0
          parameter := 0
          stackAddr := 0
          stackSize := 0
          initTick := 0
          currentPriority := 0
          stat := .init })
    | (some stackStart, heap, k) => do
      let k ← threadInit rtObjectClassThread k thread name entry parameter stackStart stackSize priority
        tick
      some (some thread, heap, k)

/-- `rt_schedule_insert_thread` -/
def rtScheduleInsertThread (k : Kernel) (thread : ℕ) : Kernel :=
  k.setStat thread (if thread = k.current then .running else .ready)

/-- `rt_thread_startup`; no thread has a higher priority than the watcher, which calls it. -/
def rtThreadStartup (k : Kernel) (thread : ℕ) : Option Kernel :=
  if (k.tcb thread).stat = .init ∧ (k.tcb thread).getType = rtObjectClassThread then
    some (rtScheduleInsertThread k thread)
  else none

/-- A thread ends: `rt_thread_defunct_enqueue` and `RT_THREAD_CLOSE`. -/
def threadClose (k : Kernel) (thread : ℕ) : Kernel :=
  { k.setStat thread .close with defunct := thread :: k.defunct }

/-- `rt_thread_detach` and `rt_thread_delete`, for static objects and for the others. -/
def threadKill (isStatic : Bool) (k : Kernel) (thread : ℕ) : Option Kernel :=
  if (k.tcb thread).getType = rtObjectClassThread ∧ (k.tcb thread).isSystemobject = isStatic then
    if (k.tcb thread).stat = .close then some k else some (threadClose k thread)
  else none

/-- `rt_thread_detach` -/
def rtThreadDetach (k : Kernel) (thread : ℕ) : Option Kernel := threadKill true k thread

/-- `rt_thread_delete` -/
def rtThreadDelete (k : Kernel) (thread : ℕ) : Option Kernel := threadKill false k thread

/-- `rt_object_detach` -/
def rtObjectDetach (k : Kernel) (object : ℕ) : Kernel :=
  { k.setTcb object { k.tcb object with type := 0 } with objects := k.objects.erase object }

/-- `rt_object_delete`: no longer registered, its memory is the heap's again. -/
def rtObjectDelete (k : Kernel) (object : ℕ) : Kernel :=
  { k.setTcb object { k.tcb object with type := 0 } with objects := k.objects.erase object }

/-- A round of `rt_defunct_execute` -/
def rtDefunctExecute (k : Kernel) : Kernel :=
  match k.defunct with
  | [] => k
  | thread :: defunct =>
    if (k.tcb thread).isSystemobject then rtObjectDetach { k with defunct := defunct } thread
    else rtObjectDelete { k with defunct := defunct } thread

/-! ## Scheduling -/

/-- `rt_schedule` switches to a thread: it is ready, none that is has a higher priority, and the running
thread, when it goes on at all, has not either. -/
def Kernel.SwitchesTo (k : Kernel) (toThread : ℕ) : Prop :=
  toThread ∈ k.objects ∧ toThread ≠ k.current ∧ (k.tcb toThread).stat = .ready ∧
    (∀ a ∈ k.objects, (k.tcb a).stat = .ready →
      (k.tcb toThread).currentPriority ≤ (k.tcb a).currentPriority) ∧
    ((k.tcb k.current).stat = .running →
      (k.tcb toThread).currentPriority ≤ (k.tcb k.current).currentPriority)

instance (k : Kernel) (toThread : ℕ) : Decidable (k.SwitchesTo toThread) :=
  inferInstanceAs (Decidable (_ ∧ _ ∧ _ ∧ _ ∧ _))

/-- The switch of `rt_schedule` -/
def rtScheduleSwitch (k : Kernel) (toThread : ℕ) : Kernel :=
  let k₁ := if (k.tcb k.current).stat = .running then k.setStat k.current .ready else k
  { k₁.setStat toThread .running with current := toThread }

/-! ## What keeps a kernel sound -/

/-- The threads are the same, up to what the scheduler makes of them. -/
structure SameThreads (k k' : Kernel) : Prop where
  tcb : ∀ a ∈ k.objects, { k'.tcb a with stat := .init } = { k.tcb a with stat := .init }
  objects : k'.objects = k.objects
  idle : k'.idle = k.idle
  watcher : k'.watcher = k.watcher
  starts : k'.starts = k.starts

/-- What holds of the kernel between events. -/
structure Sound (k : Kernel) : Prop where
  nodup : k.objects.Nodup
  current : k.current ∈ k.objects
  idle : k.idle ∈ k.objects
  watcher : k.watcher ∈ k.objects
  idle_ne : k.idle ≠ k.watcher
  thread : ∀ a ∈ k.objects, (k.tcb a).getType = rtObjectClassThread
  priority : ∀ a ∈ k.objects, (k.tcb a).currentPriority < rtThreadPriorityMax
  idle_priority : (k.tcb k.idle).currentPriority = rtThreadPriorityMax - 1
  idle_open : (k.tcb k.idle).stat ≠ .close
  watcher_open : (k.tcb k.watcher).stat ≠ .close
  defunct : ∀ a ∈ k.defunct, a ∈ k.objects ∧ (k.tcb a).stat = .close
  defunct_nodup : k.defunct.Nodup
  start_lt : ∀ a ∈ k.objects, (k.tcb a).start < k.starts
  start_inj : ∀ a ∈ k.objects, ∀ b ∈ k.objects, (k.tcb a).start = (k.tcb b).start → a = b

section Sound

variable {k k' : Kernel} {a b : ℕ} {stat : Stat} {wrote : ℕ → Option Thread}

theorem Kernel.tcb_setStat_of_ne (h : b ≠ a) : (k.setStat a stat).tcb b = k.tcb b :=
  Function.update_of_ne h _ _

@[simp] theorem Kernel.tcb_setStat_self :
    (k.setStat a stat).tcb a = { k.tcb a with stat := stat } := Function.update_self ..

theorem Kernel.stat_setStat : ((k.setStat a stat).tcb b).stat = if b = a then stat else (k.tcb b).stat := by
  by_cases h : b = a
  · rw [if_pos h, h, tcb_setStat_self]
  · rw [if_neg h, tcb_setStat_of_ne h]

@[simp] theorem Kernel.isSystemobject_setStat :
    ((k.setStat a stat).tcb b).isSystemobject = (k.tcb b).isSystemobject := by
  by_cases h : b = a
  · rw [h, tcb_setStat_self]
    rfl
  · rw [tcb_setStat_of_ne h]

theorem Kernel.tcb_overwrite_of_mem (h : a ∈ k.objects) : (k.overwrite wrote).tcb a = k.tcb a :=
  if_neg fun hfree => hfree.2 h

/-- What lies at an address after free memory was written. -/
theorem Kernel.tcb_overwrite (k : Kernel) (wrote : ℕ → Option Thread) (a : ℕ) :
    (k.overwrite wrote).tcb a = k.tcb a ∨ wrote a = some ((k.overwrite wrote).tcb a) := by
  unfold overwrite
  simp only
  split
  · cases hw : wrote a with
    | none => exact Or.inl rfl
    | some t => exact Or.inr rfl
  · exact Or.inl rfl

namespace SameThreads

theorem refl (k : Kernel) : SameThreads k k := ⟨fun _ _ => rfl, rfl, rfl, rfl, rfl⟩

theorem trans {k'' : Kernel} (h : SameThreads k k') (h' : SameThreads k' k'') : SameThreads k k'' :=
  ⟨fun a ha => (h'.tcb a (h.objects ▸ ha)).trans (h.tcb a ha), h'.objects.trans h.objects,
    h'.idle.trans h.idle, h'.watcher.trans h.watcher, h'.starts.trans h.starts⟩

theorem setStat (k : Kernel) (a : ℕ) (stat : Stat) : SameThreads k (k.setStat a stat) := by
  refine ⟨fun b _ => ?_, rfl, rfl, rfl, rfl⟩
  by_cases h : b = a
  · rw [h, Kernel.tcb_setStat_self]
  · rw [Kernel.tcb_setStat_of_ne h]

theorem threadClose (k : Kernel) (a : ℕ) : SameThreads k (threadClose k a) :=
  ⟨(setStat k a .close).tcb, rfl, rfl, rfl, rfl⟩

theorem overwrite (k : Kernel) (wrote : ℕ → Option Thread) : SameThreads k (k.overwrite wrote) := by
  refine ⟨fun a ha => ?_, rfl, rfl, rfl, rfl⟩
  rw [Kernel.tcb_overwrite_of_mem ha]

theorem rtScheduleSwitch (k : Kernel) (toThread : ℕ) :
    SameThreads k (rtScheduleSwitch k toThread) := by
  unfold Syswatch.rtScheduleSwitch
  simp only
  split
  · exact (setStat k k.current .ready).trans
      ⟨(setStat (k.setStat k.current .ready) toThread .running).tcb, rfl, rfl, rfl, rfl⟩
  · exact ⟨(setStat k toThread .running).tcb, rfl, rfl, rfl, rfl⟩

theorem type_eq (h : SameThreads k k') (ha : a ∈ k.objects) : (k'.tcb a).type = (k.tcb a).type := by
  have heq := congrArg Thread.type (h.tcb a ha)
  exact heq

theorem priority_eq (h : SameThreads k k') (ha : a ∈ k.objects) :
    (k'.tcb a).currentPriority = (k.tcb a).currentPriority := by
  have heq := congrArg Thread.currentPriority (h.tcb a ha)
  exact heq

theorem start_eq (h : SameThreads k k') (ha : a ∈ k.objects) :
    (k'.tcb a).start = (k.tcb a).start := by
  have heq := congrArg Thread.start (h.tcb a ha)
  exact heq

end SameThreads

/-- A kernel in which only the scheduler was at work is sound when what it did is. -/
theorem Sound.of_same (h : Sound k) (hsame : SameThreads k k') (hcurrent : k'.current ∈ k.objects)
    (hidle : (k'.tcb k.idle).stat ≠ .close) (hwatcher : (k'.tcb k.watcher).stat ≠ .close)
    (hdefunct : ∀ a ∈ k'.defunct, a ∈ k.objects ∧ (k'.tcb a).stat = .close)
    (hnodup : k'.defunct.Nodup) : Sound k' where
  nodup := hsame.objects ▸ h.nodup
  current := hsame.objects ▸ hcurrent
  idle := by
    rw [hsame.objects, hsame.idle]
    exact h.idle
  watcher := by
    rw [hsame.objects, hsame.watcher]
    exact h.watcher
  idle_ne := by
    rw [hsame.idle, hsame.watcher]
    exact h.idle_ne
  thread := by
    intro a ha
    rw [hsame.objects] at ha
    rw [Thread.getType, hsame.type_eq ha]
    exact h.thread a ha
  priority := by
    intro a ha
    rw [hsame.objects] at ha
    rw [hsame.priority_eq ha]
    exact h.priority a ha
  idle_priority := by
    rw [hsame.idle, hsame.priority_eq h.idle]
    exact h.idle_priority
  idle_open := hsame.idle ▸ hidle
  watcher_open := hsame.watcher ▸ hwatcher
  defunct := hsame.objects ▸ hdefunct
  defunct_nodup := hnodup
  start_lt := by
    intro a ha
    rw [hsame.objects] at ha
    rw [hsame.start_eq ha, hsame.starts]
    exact h.start_lt a ha
  start_inj := by
    intro a ha b hb hab
    rw [hsame.objects] at ha hb
    rw [hsame.start_eq ha, hsame.start_eq hb] at hab
    exact h.start_inj a ha b hb hab

theorem Sound.not_defunct (h : Sound k) (ha : (k.tcb a).stat ≠ .close) : a ∉ k.defunct :=
  fun hmem => ha (h.defunct a hmem).2

/-- An open thread may take any open state. -/
theorem Sound.setStat (h : Sound k) (ha : (k.tcb a).stat ≠ .close) (hstat : stat ≠ .close) :
    Sound (k.setStat a stat) := by
  have hopen : ∀ b, (k.tcb b).stat ≠ .close → ((k.setStat a stat).tcb b).stat ≠ .close := by
    intro b hb
    rw [Kernel.stat_setStat]
    split
    · exact hstat
    · exact hb
  apply h.of_same (SameThreads.setStat k a stat) h.current (hopen _ h.idle_open)
    (hopen _ h.watcher_open) ?_ h.defunct_nodup
  intro b hb
  obtain ⟨hmem, hclose⟩ := h.defunct b hb
  refine ⟨hmem, ?_⟩
  rw [Kernel.tcb_setStat_of_ne (by rintro rfl; exact ha hclose)]
  exact hclose

/-- Any open thread but the idle one and the watcher may end. -/
theorem Sound.threadClose (h : Sound k) (hmem : a ∈ k.objects) (ha : (k.tcb a).stat ≠ .close)
    (hidle : a ≠ k.idle) (hwatcher : a ≠ k.watcher) : Sound (threadClose k a) := by
  apply h.of_same (SameThreads.threadClose k a) h.current
  · show ((k.setStat a .close).tcb k.idle).stat ≠ .close
    rw [Kernel.tcb_setStat_of_ne hidle.symm]
    exact h.idle_open
  · show ((k.setStat a .close).tcb k.watcher).stat ≠ .close
    rw [Kernel.tcb_setStat_of_ne hwatcher.symm]
    exact h.watcher_open
  · intro b hb
    show b ∈ k.objects ∧ ((k.setStat a .close).tcb b).stat = .close
    rw [Kernel.stat_setStat]
    rcases List.mem_cons.1 hb with rfl | hb
    · exact ⟨hmem, if_pos rfl⟩
    · obtain ⟨hmem, hclose⟩ := h.defunct b hb
      refine ⟨hmem, ?_⟩
      split
      · rfl
      · exact hclose
  · exact List.nodup_cons.2 ⟨h.not_defunct ha, h.defunct_nodup⟩

theorem Sound.overwrite (h : Sound k) (wrote : ℕ → Option Thread) : Sound (k.overwrite wrote) := by
  apply h.of_same (SameThreads.overwrite k wrote) h.current
  · rw [Kernel.tcb_overwrite_of_mem h.idle]
    exact h.idle_open
  · rw [Kernel.tcb_overwrite_of_mem h.watcher]
    exact h.watcher_open
  · intro a ha
    obtain ⟨hmem, hclose⟩ := h.defunct a ha
    rw [Kernel.tcb_overwrite_of_mem hmem]
    exact ⟨hmem, hclose⟩
  · exact h.defunct_nodup

/-- Another thread runs. -/
theorem Sound.withCurrent (h : Sound k) (ha : a ∈ k.objects) : Sound { k with current := a } :=
  h.of_same ⟨fun _ _ => rfl, rfl, rfl, rfl, rfl⟩ ha h.idle_open h.watcher_open h.defunct
    h.defunct_nodup

theorem Sound.rtScheduleSwitch {toThread : ℕ} (h : Sound k) (hswitch : k.SwitchesTo toThread) :
    Sound (rtScheduleSwitch k toThread) := by
  obtain ⟨hmem, -, hready, -⟩ := hswitch
  have hopen : (k.tcb toThread).stat ≠ .close := by
    rw [hready]
    decide
  unfold Syswatch.rtScheduleSwitch
  simp only
  split
  · rename_i hrunning
    have hcurrent : (k.tcb k.current).stat ≠ .close := by
      rw [hrunning]
      decide
    have hready' : Sound (k.setStat k.current .ready) := h.setStat hcurrent (by decide)
    refine Sound.withCurrent (hready'.setStat ?_ (by decide)) hmem
    rw [Kernel.stat_setStat]
    split
    · decide
    · exact hopen
  · exact Sound.withCurrent (h.setStat hopen (by decide)) hmem

/-- Both kinds of objects are removed alike. -/
theorem rtDefunctExecute_cons {rest : List ℕ} (h : k.defunct = a :: rest) :
    rtDefunctExecute k = rtObjectDelete { k with defunct := rest } a := by
  unfold rtDefunctExecute
  rw [h]
  simp only
  split
  · rfl
  · rfl

theorem tcb_rtObjectDelete_of_ne (h : b ≠ a) : (rtObjectDelete k a).tcb b = k.tcb b :=
  Function.update_of_ne h _ _

/-- An object that stays is another one. -/
theorem mem_rtObjectDelete (h : k.objects.Nodup) :
    b ∈ (rtObjectDelete k a).objects ↔ b ≠ a ∧ b ∈ k.objects := h.mem_erase_iff

/-- What stays when a thread is removed was registered, and is as it was. -/
theorem Sound.of_mem_rtDefunctExecute (h : Sound k) (hb : b ∈ (rtDefunctExecute k).objects) :
    b ∈ k.objects ∧ (rtDefunctExecute k).tcb b = k.tcb b := by
  cases hd : k.defunct with
  | nil =>
    have hsame : rtDefunctExecute k = k := by rw [rtDefunctExecute, hd]
    rw [hsame] at hb ⊢
    exact ⟨hb, rfl⟩
  | cons a rest =>
    rw [rtDefunctExecute_cons hd] at hb ⊢
    obtain ⟨hne, hmem⟩ := (mem_rtObjectDelete h.nodup).1 hb
    exact ⟨hmem, tcb_rtObjectDelete_of_ne hne⟩

/-- A removed object has no type, and so is no static one. -/
theorem isSystemobject_rtDefunctExecute (h : (k.tcb a).isSystemobject = false) :
    ((rtDefunctExecute k).tcb a).isSystemobject = false := by
  cases hd : k.defunct with
  | nil =>
    rw [rtDefunctExecute, hd]
    exact h
  | cons b rest =>
    rw [rtDefunctExecute_cons hd]
    by_cases hb : a = b
    · rw [hb, rtObjectDelete, Kernel.setTcb]
      simp only
      rw [Function.update_self]
      show ((0 : UInt8) &&& rtObjectClassStatic != 0) = false
      decide
    · rw [tcb_rtObjectDelete_of_ne hb]
      exact h

/-- The idle thread removes the objects of threads that ended. -/
theorem Sound.rtDefunctExecute (h : Sound k) (hcurrent : k.current = k.idle) :
    Sound (rtDefunctExecute k) := by
  cases hd : k.defunct with
  | nil =>
    rw [Syswatch.rtDefunctExecute, hd]
    exact h
  | cons a rest =>
    have hdefunct := h.defunct
    have hnodup := h.defunct_nodup
    rw [hd] at hdefunct hnodup
    obtain ⟨-, hclose⟩ := hdefunct a List.mem_cons_self
    have hstay : ∀ b ∈ (rtObjectDelete { k with defunct := rest } a).objects, b ∈ k.objects ∧
        (rtObjectDelete { k with defunct := rest } a).tcb b = k.tcb b := by
      intro b hb
      obtain ⟨hne, hmem⟩ := (mem_rtObjectDelete (k := { k with defunct := rest }) h.nodup).1 hb
      exact ⟨hmem, tcb_rtObjectDelete_of_ne hne⟩
    have hkeep : ∀ b ∈ k.objects, (k.tcb b).stat ≠ .close →
        b ∈ (rtObjectDelete { k with defunct := rest } a).objects := by
      intro b hmem hb
      refine (mem_rtObjectDelete (k := { k with defunct := rest }) h.nodup).2 ⟨?_, hmem⟩
      rintro rfl
      exact hb hclose
    have hidle := hkeep _ h.idle h.idle_open
    have hwatcher := hkeep _ h.watcher h.watcher_open
    rw [rtDefunctExecute_cons hd]
    constructor
    · exact h.nodup.erase a
    · show k.current ∈ _
      rw [hcurrent]
      exact hidle
    · exact hidle
    · exact hwatcher
    · exact h.idle_ne
    · intro b hb
      rw [(hstay b hb).2]
      exact h.thread b (hstay b hb).1
    · intro b hb
      rw [(hstay b hb).2]
      exact h.priority b (hstay b hb).1
    · exact (congrArg Thread.currentPriority (hstay _ hidle).2).trans h.idle_priority
    · show ((rtObjectDelete _ a).tcb k.idle).stat ≠ .close
      rw [(hstay _ hidle).2]
      exact h.idle_open
    · show ((rtObjectDelete _ a).tcb k.watcher).stat ≠ .close
      rw [(hstay _ hwatcher).2]
      exact h.watcher_open
    · intro b hb
      obtain ⟨hmem, hbclose⟩ := hdefunct b (List.mem_cons_of_mem _ hb)
      have hne : b ≠ a := by
        rintro rfl
        exact (List.nodup_cons.1 hnodup).1 hb
      refine ⟨(mem_rtObjectDelete (k := { k with defunct := rest }) h.nodup).2 ⟨hne, hmem⟩, ?_⟩
      rw [tcb_rtObjectDelete_of_ne hne]
      exact hbclose
    · exact (List.nodup_cons.1 hnodup).2
    · intro b hb
      rw [(hstay b hb).2]
      exact h.start_lt b (hstay b hb).1
    · intro b hb c hc
      rw [(hstay b hb).2, (hstay c hc).2]
      exact h.start_inj b (hstay b hb).1 c (hstay c hc).1

/-! ### A thread is started -/

/-- A kernel with one thread more. -/
def Kernel.add (k : Kernel) (a : ℕ) (t : Thread) : Kernel :=
  { k with
    tcb := Function.update k.tcb a { t with start := k.starts }
    objects := a :: k.objects
    starts := k.starts + 1 }

theorem Kernel.tcb_add_of_mem {t : Thread} (ha : a ∉ k.objects) (hb : b ∈ k.objects) :
    (k.add a t).tcb b = k.tcb b :=
  Function.update_of_ne (by rintro rfl; exact ha hb) _ _

@[simp] theorem Kernel.tcb_add_self {t : Thread} : (k.add a t).tcb a = { t with start := k.starts } :=
  Function.update_self ..

/-- Its start is a new one. -/
theorem Sound.add {t : Thread} (h : Sound k) (ha : a ∉ k.objects)
    (htype : t.getType = rtObjectClassThread) (hpriority : t.currentPriority < rtThreadPriorityMax) :
    Sound (k.add a t) := by
  have hold : ∀ b ∈ k.objects, (k.add a t).tcb b = k.tcb b := fun b hb => Kernel.tcb_add_of_mem ha hb
  have hnew : ((k.add a t).tcb a).start = k.starts := by rw [Kernel.tcb_add_self]
  constructor
  · exact List.nodup_cons.2 ⟨ha, h.nodup⟩
  · exact List.mem_cons_of_mem _ h.current
  · exact List.mem_cons_of_mem _ h.idle
  · exact List.mem_cons_of_mem _ h.watcher
  · exact h.idle_ne
  · intro b hb
    rcases List.mem_cons.1 hb with rfl | hb
    · rw [Kernel.tcb_add_self]
      exact htype
    · rw [hold b hb]
      exact h.thread b hb
  · intro b hb
    rcases List.mem_cons.1 hb with rfl | hb
    · rw [Kernel.tcb_add_self]
      exact hpriority
    · rw [hold b hb]
      exact h.priority b hb
  · exact (congrArg Thread.currentPriority (hold _ h.idle)).trans h.idle_priority
  · show ((k.add a t).tcb k.idle).stat ≠ .close
    rw [hold _ h.idle]
    exact h.idle_open
  · show ((k.add a t).tcb k.watcher).stat ≠ .close
    rw [hold _ h.watcher]
    exact h.watcher_open
  · intro b hb
    obtain ⟨hmem, hclose⟩ := h.defunct b hb
    refine ⟨List.mem_cons_of_mem _ hmem, ?_⟩
    rw [hold b hmem]
    exact hclose
  · exact h.defunct_nodup
  · intro b hb
    show ((k.add a t).tcb b).start < k.starts + 1
    rcases List.mem_cons.1 hb with rfl | hb
    · rw [hnew]
      exact Nat.lt_succ_self _
    · rw [hold b hb]
      exact Nat.lt_succ_of_lt (h.start_lt b hb)
  · intro b hb c hc heq
    rcases List.mem_cons.1 hb with rfl | hb'
    · rcases List.mem_cons.1 hc with rfl | hc'
      · rfl
      · rw [hnew, hold c hc'] at heq
        exact absurd heq.symm (Nat.ne_of_lt (h.start_lt c hc'))
    · rcases List.mem_cons.1 hc with rfl | hc'
      · rw [hnew, hold b hb'] at heq
        exact absurd heq (Nat.ne_of_lt (h.start_lt b hb'))
      · rw [hold b hb', hold c hc'] at heq
        exact h.start_inj b hb' c hc' heq

end Sound

end RtThreadOta.Syswatch
