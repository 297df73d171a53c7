import RtThreadOta.Syswatch.Restart

/-!
# Runs of the watcher

What one favourable step leads to, and from it what a run does: the invariant holds in every state, the
threads handled and restarted stay on record, and what waits when the exception is over is restarted
within fifteen rounds.
-/

namespace RtThreadOta.Syswatch

variable {s s' : State} {k : Kernel} {msg : ThreadMsg} {msgs : List ThreadMsg} {heap : Answers}
  {g g' : Grant} {toThread : ℕ} {act : Action}

/-! ## The threads that wait are restarted -/

/-- The first of several requests that are granted. -/
theorem exists_grant {n : ℕ} (h : ∀ i < n + 1, (heap.getD i none).isSome = true) :
    ∃ g rest, heap = some g :: rest ∧ ∀ i < n, (rest.getD i none).isSome = true := by
  rcases heap with _ | ⟨_ | g, rest⟩
  · exact absurd (h 0 (Nat.succ_pos n)) Bool.false_ne_true
  · exact absurd (h 0 (Nat.succ_pos n)) Bool.false_ne_true
  · exact ⟨g, rest, rfl, fun i hi => h (i + 1) (Nat.succ_lt_succ hi)⟩

/-- What is left of the heap's answers suits the kernel with one thread more. -/
theorem Answers.Valid.restart (h : Answers.Valid (some g :: some g' :: heap) k) :
    Answers.Valid heap (k.restart msg g g') := by
  obtain ⟨hfree, hnodup⟩ := h
  obtain ⟨hne, hnodup⟩ := List.nodup_cons.1 hnodup
  obtain ⟨-, hnodup⟩ := List.nodup_cons.1 hnodup
  refine ⟨?_, hnodup⟩
  intro x hx
  obtain ⟨hheap, hobjects⟩ := hfree x (List.mem_cons_of_mem _ (List.mem_cons_of_mem _ hx))
  refine ⟨hheap, ?_⟩
  intro hmem
  rcases List.mem_cons.1 hmem with heq | hmem
  · exact hne (List.mem_cons_of_mem _ (heq ▸ List.mem_map_of_mem hx))
  · exact hobjects hmem

/-- The watcher restarted all that waited, and touched nothing else of its own. -/
structure Resumed (s s' : State) : Prop where
  inv : Inv s'
  sw : s'.sw = { s.sw with waitResumeSlist := [] }
  handled : s'.handled = s.handled
  restarted : s.restarted <+: s'.restarted
  rounds : s'.rounds = s.rounds

/-- The induction is on the list; each message costs two grants. -/
theorem Inv.resumeAll (h : Inv s) (hstep : s.sw.opStep = 2) (hmsgs : s.sw.waitResumeSlist = msgs)
    (hvalid : heap.Valid s.kernel)
    (hgranted : ∀ i < 2 * msgs.length, (heap.getD i none).isSome = true)
    (hspares : ∀ x ∈ heap.reduceOption, SparesWaiting s.sw x.wrote) :
    ∃ s', resumeAll msgs heap s = some s' ∧ Resumed s s' := by
  induction msgs generalizing s heap with
  | nil =>
    refine ⟨s, rfl, h, ?_, rfl, List.prefix_refl _, rfl⟩
    rw [← hmsgs]
  | cons msg msgs ih =>
    obtain ⟨g, rest₁, rfl, hgranted₁⟩ := exists_grant (n := 2 * msgs.length + 1) hgranted
    obtain ⟨g', rest, rfl, hgranted'⟩ := exists_grant hgranted₁
    have hg : g ∈ (some g :: some g' :: rest).reduceOption := List.mem_cons_self
    have hg' : g' ∈ (some g :: some g' :: rest).reduceOption :=
      List.mem_cons_of_mem _ List.mem_cons_self
    have hfree : g.addr ∉ s.kernel.objects := (hvalid.1 g hg).2
    have hmem : msg ∈ s.sw.waitResumeSlist := by
      rw [hmsgs]
      exact List.mem_cons_self
    have heq : Syswatch.resumeAll (msg :: msgs) (some g :: some g' :: rest) s =
        Syswatch.resumeAll msgs rest (s.restart msg msgs g g') := by
      rw [Syswatch.resumeAll, resumeFromMsg_eq (h.dynamic msg hmem) (h.waiting_priority hmem)]
      · rfl
      · rintro hcurrent
        exact hfree (hcurrent ▸ h.kernel.current)
    have hspares' : ∀ x ∈ rest.reduceOption, SparesWaiting (s.restart msg msgs g g').sw x.wrote := by
      intro x hx m hm
      refine hspares x (List.mem_cons_of_mem _ (List.mem_cons_of_mem _ hx)) m ?_
      rw [hmsgs]
      exact List.mem_cons_of_mem _ hm
    obtain ⟨s', hs', hresumed⟩ := ih (h.restart hstep hmsgs hfree (hspares g hg) (hspares g' hg'))
      hstep rfl hvalid.restart hgranted' hspares'
    exact ⟨s', heq.trans hs', hresumed.inv, hresumed.sw, hresumed.handled,
      (List.prefix_append _ _).trans hresumed.restarted, hresumed.rounds⟩

/-! ## A round -/

/-- What a favourable step leads to. The threads that wait to be restarted after an exception are, or the
seconds since are counted, one a round. -/
structure LeadsTo (s s' : State) : Prop where
  inv : Inv s'
  handled : s.handled <+: s'.handled
  restarted : s.restarted <+: s'.restarted
  resuming : s.sw.opStep = 2 →
    (s'.sw.opStep = 2 ∧ s'.sw.secCnt + s.rounds = s.sw.secCnt + s'.rounds ∧
      s'.handled = s.handled ∧ s'.restarted = s.restarted) ∨
    s.handled.length ≤ s'.restarted.length

theorem LeadsTo.refl (h : Inv s) : LeadsTo s s :=
  ⟨h, List.prefix_refl _, List.prefix_refl _, fun hstep => Or.inl ⟨hstep, rfl, rfl, rfl⟩⟩

theorem LeadsTo.trans {s'' : State} (h : LeadsTo s s') (h' : LeadsTo s' s'') : LeadsTo s s'' := by
  refine ⟨h'.inv, h.handled.trans h'.handled, h.restarted.trans h'.restarted, ?_⟩
  intro hstep
  rcases h.resuming hstep with ⟨hstep', hcnt, hhandled, hrestarted⟩ | hdone
  · rcases h'.resuming hstep' with ⟨hstep'', hcnt', hhandled', hrestarted'⟩ | hdone
    · exact Or.inl ⟨hstep'', by omega, hhandled'.trans hhandled, hrestarted'.trans hrestarted⟩
    · exact Or.inr (hhandled ▸ hdone)
  · exact Or.inr (Nat.le_trans hdone h'.restarted.length_le)

/-- An event between the rounds, when the watcher's data stay as they are while threads wait to be
restarted. -/
theorem LeadsTo.between (h : Inv s') (hsw : s.sw.opStep = 2 → s'.sw = s.sw)
    (hrounds : s'.rounds = s.rounds) (hhandled : s'.handled = s.handled)
    (hrestarted : s'.restarted = s.restarted) : LeadsTo s s' := by
  refine ⟨h, hhandled ▸ List.prefix_refl _, hrestarted ▸ List.prefix_refl _, ?_⟩
  intro hstep
  rw [hsw hstep, hrounds]
  exact Or.inl ⟨hstep, rfl, hhandled, hrestarted⟩

/-- Before the count of the seconds would wrap, the timeout is over. -/
theorem syswatchCheckTimeout_eq {sw : SwData} {tmoS : ℕ} (h : sw.secCnt < syswatchExceptTimeout) :
    syswatchCheckTimeout tmoS sw =
      if sw.secCnt + 1 < tmoS then (false, { sw with secCnt := sw.secCnt + 1 })
      else (true, { sw with secCnt := 0 }) := by
  have htimeout : syswatchExceptTimeout = 60 := rfl
  unfold syswatchCheckTimeout
  simp only
  rw [Nat.mod_eq_of_lt (by omega)]

/-- An exception is looked for: the seconds are counted, or the minute is over. -/
theorem Inv.waitsExcept (h : Inv s) (heap : Answers) (hstep : s.sw.opStep = 0)
    (hcurrent : s.kernel.current = s.kernel.watcher) :
    ∃ s₁, syswatchFsm heap s = some s₁ ∧ s₁.rounds = s.rounds ∧ Inv s₁ ∧
      s₁.handled = s.handled ∧ s₁.restarted = s.restarted := by
  unfold syswatchFsm
  rw [hstep]
  simp only
  rw [syswatchCheckTimeout_eq h.secCnt_lt]
  by_cases hcnt : s.sw.secCnt + 1 < syswatchExceptTimeout
  · rw [if_pos hcnt]
    refine ⟨_, rfl, rfl, h.count hcnt ?_, rfl, rfl⟩
    rw [hstep]
    rintro ⟨⟩
  · rw [if_neg hcnt]
    refine ⟨_, rfl, rfl, ?_, rfl, rfl⟩
    apply h.withSw
    · rfl
    · exact Nat.le_succ 1
    · exact Nat.succ_pos 59
    · rintro ⟨⟩
    · rintro ⟨⟩
    · intro _
      refine ⟨?_, ?_⟩
      · rw [hcurrent]
        exact h.kernel.idle_ne.symm
      · rintro t ⟨⟩

/-- Nothing is the lowest thread after a thread was looked at. -/
theorem Inv.noLowest (h : Inv s) (hstep : s.sw.opStep = 1) {c : ℕ} (hc : c < syswatchExceptTimeout) :
    Inv { s with sw := { s.sw with secCnt := c, lowestThread := none } } := by
  apply h.withSw
  · rfl
  · exact h.opStep_le
  · exact hc
  · intro htwo
    exact absurd (hstep.symm.trans htwo) (by decide)
  · exact h.restarts.waiting
  · intro _
    refine ⟨h.awake hstep, ?_⟩
    rintro t ⟨⟩

/-- The thread to be handled is live and dynamic, and the heap has memory for its message. -/
theorem Inv.confirms (h : Inv s) (hstep : s.sw.opStep = 1)
    (hcurrent : s.kernel.current = s.kernel.watcher) (hfavourable : Favourable s (.round heap)) :
    ∃ s₁, syswatchFsm heap s = some s₁ ∧ s₁.rounds = s.rounds ∧ Inv s₁ ∧
      s.handled <+: s₁.handled ∧ s₁.restarted = s.restarted := by
  obtain ⟨hdynamic, hgranted, hspares⟩ := hfavourable
  have hcheck := @syswatchCheckTimeout_eq s.sw syswatchExceptConfirmTmo h.secCnt_lt
  have hzero : 0 < syswatchExceptTimeout := Nat.succ_pos 59
  have hnot : s.sw.opStep ≠ 2 := by
    rw [hstep]
    decide
  unfold syswatchFsm
  rw [hstep]
  simp only
  rw [hcheck]
  by_cases hcnt : s.sw.secCnt + 1 < syswatchExceptConfirmTmo
  · rw [if_pos hcnt]
    refine ⟨_, rfl, rfl, h.count ?_ fun htwo => absurd htwo hnot, List.prefix_refl _, rfl⟩
    exact Nat.lt_trans hcnt (by decide)
  rw [if_neg hcnt]
  cases hlowest : s.sw.lowestThread with
  | none => exact ⟨_, rfl, rfl, h.noLowest hstep hzero, List.prefix_refl _, rfl⟩
  | some t =>
    by_cases ht : t = s.kernel.current
    · simp only [syswatchThreadExceptResolve, if_pos ht]
      exact ⟨_, rfl, rfl, h.noLowest hstep hzero, List.prefix_refl _, rfl⟩
    have htoResolve : s.toResolve = some t := by
      unfold State.toResolve
      rw [if_pos, hlowest]
      refine ⟨hstep, ?_, ?_⟩
      · rw [hcheck, if_neg hcnt]
      · rw [hlowest]
        exact fun heq => ht (Option.some.inj heq)
    have hrequests : s.requests = 1 := by
      unfold State.requests
      rw [htoResolve]
      rfl
    rw [hrequests] at hgranted
    obtain ⟨g, rest, rfl, -⟩ := exists_grant (n := 0) hgranted
    have hdynamic := hdynamic t htoResolve
    have hinv : Inv { s with sw := { s.sw with secCnt := 0 } } :=
      h.count hzero fun htwo => absurd htwo hnot
    obtain ⟨hmem, -, hended⟩ := h.lowest hstep t hlowest
    obtain ⟨s₁, hs₁, heq⟩ := Option.map_eq_some_iff.1 (@syswatchThreadExceptResolve_eq
      { s with sw := { s.sw with secCnt := 0 } } t g rest hinv hmem ht hdynamic
      fun hclose => ht (hended hclose))
    have hspares : SparesWaiting s.sw g.wrote := hspares g List.mem_cons_self
    refine ⟨State.resolved { s with sw := { s.sw with secCnt := 0 } } t g.wrote, ?_, rfl,
      hinv.resolved hstep hcurrent hlowest ht hdynamic hspares, List.prefix_append _ _, rfl⟩
    simp only [hlowest] at hs₁
    rw [← heq]
    show (syswatchThreadExceptResolve _ _ _).bind _ = _
    simp only
    rw [hs₁]
    rfl

/-- Once the last exception is fifteen seconds ago, all that waits is restarted. -/
theorem Inv.resumes (h : Inv s) (hstep : s.sw.opStep = 2) (hvalid : heap.Valid s.kernel)
    (hfavourable : Favourable s (.round heap)) :
    ∃ s₁, syswatchFsm heap s = some s₁ ∧ s₁.rounds = s.rounds ∧ Inv s₁ ∧ s₁.handled = s.handled ∧
      s.restarted <+: s₁.restarted ∧
      (s₁.sw = { s.sw with secCnt := s.sw.secCnt + 1 } ∧ s₁.restarted = s.restarted ∨
        s.handled.length ≤ s₁.restarted.length) := by
  obtain ⟨-, hgranted, hspares⟩ := hfavourable
  have hcheck := @syswatchCheckTimeout_eq s.sw syswatchExceptResumeDly h.secCnt_lt
  unfold syswatchFsm
  rw [hstep]
  simp only
  rw [hcheck]
  by_cases hcnt : s.sw.secCnt + 1 < syswatchExceptResumeDly
  · rw [if_pos hcnt]
    refine ⟨_, rfl, rfl, h.count ?_ fun _ => hcnt, rfl, List.prefix_refl _, Or.inl ⟨rfl, rfl⟩⟩
    exact Nat.lt_trans hcnt (by decide)
  rw [if_neg hcnt]
  have hinv : Inv { s with sw := { s.sw with secCnt := 0 } } :=
    h.count (Nat.succ_pos 59) fun _ => Nat.succ_pos 14
  have htoResolve : s.toResolve = none := by
    unfold State.toResolve
    rw [if_neg]
    rintro ⟨hone, -⟩
    exact absurd (hstep.symm.trans hone) (by decide)
  have hrequests : s.requests = 2 * s.sw.waitResumeSlist.length := by
    unfold State.requests
    rw [htoResolve, Option.isSome_none, if_neg Bool.false_ne_true, if_pos]
    refine ⟨hstep, ?_⟩
    rw [hcheck, if_neg hcnt]
  rw [hrequests] at hgranted
  obtain ⟨s₁, hs₁, hresumed⟩ := hinv.resumeAll hstep rfl hvalid hgranted hspares
  refine ⟨{ s₁ with sw := { s₁.sw with opStep := 0 } }, ?_, hresumed.rounds, ?_, hresumed.handled,
    hresumed.restarted, Or.inr ?_⟩
  · show (Syswatch.resumeAll _ _ _).bind _ = _
    rw [hs₁]
    rfl
  · have hempty : s₁.sw.waitResumeSlist = [] := by rw [hresumed.sw]
    apply hresumed.inv.withSw
    · rfl
    · exact Nat.zero_le 2
    · exact hresumed.inv.secCnt_lt
    · rintro ⟨⟩
    · intro _
      exact hempty
    · rintro ⟨⟩
  · have hrecorded := hresumed.inv.restarts.recorded
    rw [hresumed.sw] at hrecorded
    have hdrop := List.drop_eq_nil_iff.1 (List.map_eq_nil_iff.1 hrecorded.symm)
    rw [hresumed.handled] at hdrop
    exact hdrop

/-- The invariant says nothing of the rounds. -/
theorem Inv.withRounds (h : Inv s) (n : ℕ) : Inv { s with rounds := n } :=
  ⟨h.kernel, ⟨h.restarts.alive, h.restarts.once, h.restarts.restarted, h.restarts.recorded,
    h.restarts.waiting⟩, h.opStep_le, h.secCnt_lt, h.resuming, h.lowest, h.awake, h.dynamic, h.running,
    h.handled_lt, h.handled_priority, h.handled_dynamic⟩

/-- A favourable round fails no assertion. -/
theorem Inv.round (h : Inv s) (hcurrent : s.kernel.current = s.kernel.watcher)
    (hvalid : heap.Valid s.kernel) (hfavourable : Favourable s (.round heap)) :
    ∃ s', syswatchRound heap s = some s' ∧ LeadsTo s s' := by
  have hfsm : ∃ s₁, syswatchFsm heap s = some s₁ ∧ s₁.rounds = s.rounds ∧ Inv s₁ ∧
      s.handled <+: s₁.handled ∧ s.restarted <+: s₁.restarted ∧ (s.sw.opStep = 2 →
        (s₁.sw = { s.sw with secCnt := s.sw.secCnt + 1 } ∧ s₁.handled = s.handled ∧
          s₁.restarted = s.restarted) ∨ s.handled.length ≤ s₁.restarted.length) := by
    have hle := h.opStep_le
    by_cases hzero : s.sw.opStep = 0
    · obtain ⟨s₁, hs₁, hrounds, hinv, hhandled, hrestarted⟩ :=
        h.waitsExcept heap hzero hcurrent
      exact ⟨s₁, hs₁, hrounds, hinv, hhandled ▸ List.prefix_refl _, hrestarted ▸ List.prefix_refl _,
        fun htwo => by omega⟩
    by_cases hone : s.sw.opStep = 1
    · obtain ⟨s₁, hs₁, hrounds, hinv, hhandled, hrestarted⟩ := h.confirms hone hcurrent hfavourable
      exact ⟨s₁, hs₁, hrounds, hinv, hhandled, hrestarted ▸ List.prefix_refl _,
        fun htwo => by omega⟩
    · obtain ⟨s₁, hs₁, hrounds, hinv, hhandled, hrestarted, hdone⟩ :=
        h.resumes (by omega) hvalid hfavourable
      exact ⟨s₁, hs₁, hrounds, hinv, hhandled ▸ List.prefix_refl _, hrestarted,
        fun _ => hdone.imp_left fun ⟨hsw, hsame⟩ => ⟨hsw, hhandled, hsame⟩⟩
  obtain ⟨s₁, hs₁, hrounds, hinv, hhandled, hrestarted, hresuming⟩ := hfsm
  refine ⟨{ s₁ with
    kernel := s₁.kernel.setStat s₁.kernel.watcher .suspend
    rounds := s₁.rounds + 1 }, ?_, ?_, hhandled, hrestarted, ?_⟩
  · show (syswatchFsm heap s).bind _ = _
    rw [hs₁]
    rfl
  · exact (hinv.setStat hinv.kernel.watcher_open (by decide)).withRounds _
  · intro htwo
    refine (hresuming htwo).imp_left ?_
    rintro ⟨hsw, hhandled, hrestarted⟩
    refine ⟨?_, ?_, hhandled, hrestarted⟩
    · show s₁.sw.opStep = 2
      rw [hsw]
      exact htwo
    · show s₁.sw.secCnt + s.rounds = s.sw.secCnt + (s₁.rounds + 1)
      rw [hsw, hrounds]
      show s.sw.secCnt + 1 + s.rounds = s.sw.secCnt + (s.rounds + 1)
      omega

/-! ## Steps and runs -/

/-- The hook leaves the watcher's data alone while threads wait to be restarted after an exception. -/
theorem hook_resuming {fromThread : ℕ} {sw : SwData} (hstep : sw.opStep = 2) :
    syswatchThreadSwitchHook k fromThread toThread sw = sw := by
  have hnot : (2 : ℕ) ≠ 1 := by decide
  unfold syswatchThreadSwitchHook
  rw [hstep]
  simp only [if_pos hnot, ite_self]

/-- The switch to the idle thread ends an exception, and when threads were killed in it they are to be
restarted. -/
theorem hook_idle {fromThread : ℕ} {sw : SwData} (hstep : sw.opStep = 1)
    (hfrom : (k.tcb fromThread).currentPriority < rtThreadPriorityMax)
    (hto : (k.tcb toThread).currentPriority = rtThreadPriorityMax - 1) (hmsgs : sw.waitResumeSlist ≠ []) :
    (syswatchThreadSwitchHook k fromThread toThread sw).opStep = 2 := by
  rcases hook_cases toThread sw hfrom with
    ⟨hnot, -⟩ | ⟨-, -, heq⟩ | ⟨-, hnot, -⟩
  · exact absurd hstep hnot
  · rw [heq]
    exact if_pos hmsgs
  · exact absurd hto hnot

/-- What each favourable event leads to. -/
theorem Inv.step (h : Inv s) (hfavourable : Favourable s act) (hstep : step s act = some s') :
    LeadsTo s s' := by
  rcases act with thread | _ | _ | toThread | heap | _ | wrote
  · obtain ⟨⟨hmem, hsuspend⟩, heq⟩ := Option.ite_none_right_eq_some.1 hstep
    obtain rfl := Option.some.inj heq
    refine LeadsTo.between (h.setStat ?_ ?_) (fun _ => rfl) rfl rfl rfl
    · rw [hsuspend]
      decide
    · split
      · decide
      · decide
  · obtain ⟨hruns, heq⟩ := Option.ite_none_right_eq_some.1 hstep
    obtain rfl := Option.some.inj heq
    refine LeadsTo.between (h.setStat ?_ (by decide)) (fun _ => rfl) rfl rfl rfl
    rw [hruns.2.2]
    decide
  · obtain ⟨hruns, heq⟩ := Option.ite_none_right_eq_some.1 hstep
    obtain rfl := Option.some.inj heq
    exact LeadsTo.between (h.exit hruns) (fun _ => rfl) rfl rfl rfl
  · obtain ⟨hswitch, heq⟩ := Option.ite_none_right_eq_some.1 hstep
    obtain rfl := Option.some.inj heq
    exact LeadsTo.between (h.schedule hswitch hfavourable) hook_resuming rfl rfl rfl
  · obtain ⟨⟨hcurrent, -, hvalid⟩, heq⟩ := Option.ite_none_right_eq_some.1 hstep
    obtain ⟨s₁, hs₁, hleads⟩ := h.round hcurrent hvalid hfavourable
    obtain rfl := Option.some.inj (hs₁.symm.trans heq)
    exact hleads
  · obtain ⟨hidle, heq⟩ := Option.ite_none_right_eq_some.1 hstep
    obtain rfl := Option.some.inj heq
    exact LeadsTo.between (h.reap hidle) (fun _ => rfl) rfl rfl rfl
  · obtain rfl := Option.some.inj hstep
    exact LeadsTo.between (h.overwrite hfavourable) (fun _ => rfl) rfl rfl rfl

/-- What a favourable run leads to. -/
theorem Inv.run (h : Inv s) (hrun : Relation.ReflTransGen FavourableStep s s') : LeadsTo s s' := by
  induction hrun with
  | refl => exact LeadsTo.refl h
  | tail _ hstep ih =>
    obtain ⟨act, hfavourable, hact⟩ := hstep
    exact ih.trans (ih.inv.step hfavourable hact)

/-- Fifteen rounds later, what was handled before them is restarted: the seconds that were counted cannot
be that many. -/
theorem LeadsTo.restarts_of_rounds (h : LeadsTo s s') (hstep : s.sw.opStep = 2)
    (hrounds : s.rounds + syswatchExceptResumeDly ≤ s'.rounds) :
    List.Forall₂ RestartOf s.handled (s'.restarted.take s.handled.length) := by
  have hdone : s.handled.length ≤ s'.restarted.length := by
    rcases h.resuming hstep with ⟨hstep', hcnt, -⟩ | hdone
    · have hlt := h.inv.resuming hstep'
      omega
    · exact hdone
  have htake := List.forall₂_take s.handled.length h.inv.restarts.restarted
  rw [List.take_take, Nat.min_eq_left hdone, ← List.prefix_iff_eq_take.1 h.handled] at htake
  exact htake

/-- In every favourable run the threads stopped are the threads restarted, up to those that wait. No round
fails an assertion. Threads that wait are to be restarted once the idle thread runs again, and are within
fifteen rounds from there. -/
theorem syswatch_restartsTheStopped {s₀ : State} (h₀ : Begins s₀)
    (hrun : Relation.ReflTransGen FavourableStep s₀ s) :
    RestartsTheStopped s ∧
    (∀ heap : Answers, s.kernel.current = s.kernel.watcher → heap.Valid s.kernel →
      Favourable s (.round heap) → (syswatchRound heap s).isSome = true) ∧
    (∀ toThread s', step s (.schedule toThread) = some s' → s.sw.opStep = 1 →
      s.sw.waitResumeSlist ≠ [] → (s.kernel.tcb toThread).currentPriority = rtThreadPriorityMax - 1 →
      s'.sw.opStep = 2) ∧
    ∀ s', Relation.ReflTransGen FavourableStep s s' → s.sw.opStep = 2 →
      s.rounds + syswatchExceptResumeDly ≤ s'.rounds →
      List.Forall₂ RestartOf s.handled (s'.restarted.take s.handled.length) := by
  have h := (h₀.inv.run hrun).inv
  refine ⟨h.restarts, ?_, ?_, ?_⟩
  · intro heap hcurrent hvalid hfavourable
    obtain ⟨s', hs', -⟩ := h.round hcurrent hvalid hfavourable
    rw [hs']
    rfl
  · intro toThread s' hstep hone hmsgs hidle
    obtain ⟨-, heq⟩ := Option.ite_none_right_eq_some.1 hstep
    obtain rfl := Option.some.inj heq
    exact hook_idle hone (h.kernel.priority _ h.kernel.current) hidle hmsgs
  · intro s' hrun' htwo hrounds
    exact (h.run hrun').restarts_of_rounds htwo hrounds

/-! ### The list, in every run -/

/-- What the list and the step of the watcher have to do with each other. -/
structure ListInOrder (sw : SwData) : Prop where
  opStep_le : sw.opStep ≤ 2
  waiting : sw.opStep = 0 → sw.waitResumeSlist = []

theorem ListInOrder.hook {sw : SwData} {fromThread : ℕ} (h : ListInOrder sw) :
    ListInOrder (syswatchThreadSwitchHook k fromThread toThread sw) := by
  unfold syswatchThreadSwitchHook
  split
  · exact h
  split
  · split
    · exact ⟨h.opStep_le, h.waiting⟩
    · by_cases hmsgs : sw.waitResumeSlist = []
      · refine ⟨?_, fun _ => hmsgs⟩
        rw [if_neg (not_not.2 hmsgs)]
        exact Nat.zero_le 2
      · have htwo : (if sw.waitResumeSlist ≠ [] then 2 else 0) = 2 := if_pos hmsgs
        exact ⟨Nat.le_of_eq htwo, fun hzero => absurd (htwo.symm.trans hzero) (by decide)⟩
    · exact h
  split
  · exact h
  split
  · exact ⟨h.opStep_le, h.waiting⟩
  split
  · exact ⟨h.opStep_le, h.waiting⟩
  split
  · exact h
  split
  · exact ⟨h.opStep_le, h.waiting⟩
  · exact h

theorem sw_of_resolveKill {thread : ℕ} (h : resolveKill thread s = some s') : s'.sw = s.sw := by
  unfold resolveKill at h
  simp only at h
  split at h
  · obtain ⟨k, -, hk⟩ := Option.bind_eq_some_iff.1 h
    obtain rfl := Option.some.inj hk
    rfl
  · obtain ⟨k, -, hk⟩ := Option.bind_eq_some_iff.1 h
    obtain rfl := Option.some.inj hk
    rfl

/-- A thread is handled within the step that confirms the exception. -/
theorem opStep_of_resolve {thread : Option ℕ} (h : syswatchThreadExceptResolve heap thread s = some s') :
    s'.sw.opStep = s.sw.opStep := by
  have hsave : ∀ (t : ℕ) (s : State), (resumeSaveMsg heap t s).sw.opStep = s.sw.opStep := by
    intro t s
    unfold resumeSaveMsg
    split <;> rfl
  unfold syswatchThreadExceptResolve at h
  split at h
  · obtain rfl := Option.some.inj h
    rfl
  split at h
  · obtain rfl := Option.some.inj h
    rfl
  · rw [sw_of_resolveKill h]
    exact hsave _ _

/-- The loop takes every message off the list. -/
theorem waiting_of_resumeAll (hmsgs : s.sw.waitResumeSlist = msgs)
    (h : resumeAll msgs heap s = some s') : s'.sw.waitResumeSlist = [] := by
  induction msgs generalizing s heap with
  | nil =>
    obtain rfl := Option.some.inj h
    exact hmsgs
  | cons msg msgs ih =>
    obtain ⟨⟨thread, rest, k⟩, -, hrest⟩ := Option.bind_eq_some_iff.1 h
    exact ih rfl hrest

theorem ListInOrder.round (h : ListInOrder s.sw) (hround : syswatchRound heap s = some s') :
    ListInOrder s'.sw := by
  obtain ⟨s₁, hs₁, heq⟩ := Option.bind_eq_some_iff.1 hround
  obtain rfl := Option.some.inj heq
  show ListInOrder s₁.sw
  have hcheck : ∀ tmoS, ∃ timeout c,
      syswatchCheckTimeout tmoS s.sw = (timeout, { s.sw with secCnt := c }) := by
    intro tmoS
    unfold syswatchCheckTimeout
    simp only
    split
    · exact ⟨_, _, rfl⟩
    · exact ⟨_, _, rfl⟩
  have hle := h.opStep_le
  unfold syswatchFsm at hs₁
  split at hs₁
  · obtain ⟨_ | _, c, hc⟩ := hcheck syswatchExceptTimeout
    · rw [hc] at hs₁
      obtain rfl := Option.some.inj hs₁
      exact ⟨h.opStep_le, h.waiting⟩
    · rw [hc] at hs₁
      obtain rfl := Option.some.inj hs₁
      refine ⟨Nat.le_succ 1, ?_⟩
      rintro ⟨⟩
  · rename_i hone
    obtain ⟨_ | _, c, hc⟩ := hcheck syswatchExceptConfirmTmo
    · rw [hc] at hs₁
      obtain rfl := Option.some.inj hs₁
      exact ⟨h.opStep_le, h.waiting⟩
    · rw [hc] at hs₁
      obtain ⟨s₂, hs₂, heq⟩ := Option.bind_eq_some_iff.1 hs₁
      obtain rfl := Option.some.inj heq
      have hstep : s₂.sw.opStep = 1 := (opStep_of_resolve hs₂).trans hone
      refine ⟨hstep ▸ Nat.le_succ 1, fun hzero => ?_⟩
      exact absurd (hstep.symm.trans hzero) (by decide)
  · obtain ⟨_ | _, c, hc⟩ := hcheck syswatchExceptResumeDly
    · rw [hc] at hs₁
      obtain rfl := Option.some.inj hs₁
      exact ⟨h.opStep_le, h.waiting⟩
    · rw [hc] at hs₁
      obtain ⟨s₂, hs₂, heq⟩ := Option.bind_eq_some_iff.1 hs₁
      obtain rfl := Option.some.inj heq
      have hempty : s₂.sw.waitResumeSlist = [] :=
        waiting_of_resumeAll (s := { s with sw := { s.sw with secCnt := c } }) rfl hs₂
      exact ⟨Nat.zero_le 2, fun _ => hempty⟩
  · rename_i hzero hone htwo
    have hthree : s.sw.opStep ≠ 0 ∧ s.sw.opStep ≠ 1 ∧ s.sw.opStep ≠ 2 := ⟨hzero, hone, htwo⟩
    omega

/-- What an event does to the watcher's data is the hook's work or a round's. -/
theorem sw_step_cases (h : step s act = some s') :
    s'.sw = s.sw ∨
    (∃ toThread, s'.sw = syswatchThreadSwitchHook s.kernel s.kernel.current toThread s.sw) ∨
    ∃ heap, syswatchRound heap s = some s' := by
  rcases act with thread | _ | _ | toThread | heap | _ | wrote
  · obtain ⟨-, heq⟩ := Option.ite_none_right_eq_some.1 h
    exact Or.inl (congrArg State.sw (Option.some.inj heq)).symm
  · obtain ⟨-, heq⟩ := Option.ite_none_right_eq_some.1 h
    exact Or.inl (congrArg State.sw (Option.some.inj heq)).symm
  · obtain ⟨-, heq⟩ := Option.ite_none_right_eq_some.1 h
    exact Or.inl (congrArg State.sw (Option.some.inj heq)).symm
  · obtain ⟨-, heq⟩ := Option.ite_none_right_eq_some.1 h
    exact Or.inr (Or.inl ⟨toThread, (congrArg State.sw (Option.some.inj heq)).symm⟩)
  · obtain ⟨-, heq⟩ := Option.ite_none_right_eq_some.1 h
    exact Or.inr (Or.inr ⟨heap, heq⟩)
  · obtain ⟨-, heq⟩ := Option.ite_none_right_eq_some.1 h
    exact Or.inl (congrArg State.sw (Option.some.inj heq)).symm
  · exact Or.inl (congrArg State.sw (Option.some.inj h)).symm

/-- In every run, favourable or not, nothing waits when the watcher waits for an exception. -/
theorem waiting_of_run {s₀ : State} (h₀ : s₀.sw = SwData.initial)
    (hrun : Relation.ReflTransGen (fun s s' => ∃ act, step s act = some s') s₀ s) :
    s.sw.opStep = 0 → s.sw.waitResumeSlist = [] := by
  have horder : ListInOrder s.sw := by
    induction hrun with
    | refl =>
      rw [h₀]
      exact ⟨Nat.zero_le 2, fun _ => rfl⟩
    | tail _ hstep ih =>
      obtain ⟨act, hact⟩ := hstep
      rcases sw_step_cases hact with hsame | ⟨toThread, hhook⟩ | ⟨heap, hround⟩
      · exact hsame ▸ ih
      · exact hhook ▸ ih.hook
      · exact ih.round hround
  exact horder.waiting

/-! ### A thread that does not let the idle thread run

A system with the idle thread, the watcher and a worker that never waits. The watcher wakes every second.
-/

/-- The control blocks: the worker's is a static object or not. -/
def bootThread (isStatic : Bool) : ℕ → Thread
  | 0 => ⟨0x81, "tidle0".toUTF8.toList, 100, 0, 1000, 256, 32, 31, .ready, 0⟩
  | 1 => ⟨0x01, "syswatch".toUTF8.toList, 101, 0, 1001, 512, 20, 0, .suspend, 1⟩
  | 2 =>
    ⟨if isStatic then 0x81 else 0x01, "worker".toUTF8.toList, 102, 7, 1002, 1024, 10, 10, .running, 2⟩
  | _ => ⟨0, [], 0, 0, 0, 0, 0, 0, .init, 0⟩

/-- The system when the watcher has begun and waits, and the worker runs. -/
def boot (isStatic : Bool) : State where
  kernel :=
    { tcb := bootThread isStatic
      objects := [0, 1, 2]
      heap := fun a => !(bootThread isStatic a).isSystemobject
      current := 2
      defunct := []
      idle := 0
      watcher := 1
      starts := 3 }
  sw := SwData.initial
  handled := []
  restarted := []
  rounds := 0

theorem boot_begins (isStatic : Bool) : Begins (boot isStatic) := by
  refine ⟨?_, rfl, rfl, rfl⟩
  cases isStatic <;> constructor <;> decide

/-- The watcher wakes, takes its round and waits; then a thread runs for a second. -/
def second (heap : List ℕ) (toThread : ℕ) : List Action :=
  [.resume 1, .schedule 1, .round (heap.map fun a => some ⟨a, fun _ => none⟩), .schedule toThread]

/-- The worker runs for an exception's minute and the time to confirm it, is killed, and the idle thread
runs. -/
def killsWorker : List Action :=
  (List.replicate 74 (second [] 2)).flatten ++ second [50] 0

/-- The idle thread removes the worker and runs on, until the worker is restarted. -/
def restartsWorker : List Action :=
  .reap :: ((List.replicate 14 (second [] 0)).flatten ++ second [60, 70] 60)

/-- The state after events that are all allowed. -/
def run (allowed : State → Action → Prop) [∀ s act, Decidable (allowed s act)] :
    List Action → State → Option State
  | [], s => some s
  | act :: acts, s => if allowed s act then (step s act).bind (run allowed acts) else none

theorem reflTransGen_of_run {allowed : State → Action → Prop} [∀ s act, Decidable (allowed s act)]
    {acts : List Action} (h : run allowed acts s = some s') :
    Relation.ReflTransGen (fun s s' => ∃ act, allowed s act ∧ step s act = some s') s s' := by
  induction acts generalizing s with
  | nil =>
    obtain rfl := Option.some.inj h
    exact Relation.ReflTransGen.refl
  | cons act acts ih =>
    obtain ⟨hallowed, hstep⟩ := Option.ite_none_right_eq_some.1 h
    obtain ⟨s₁, hs₁, hrest⟩ := Option.bind_eq_some_iff.1 hstep
    exact Relation.ReflTransGen.head ⟨act, hallowed, hs₁⟩ (ih hrest)

set_option maxRecDepth 20000 in
/-- A dynamic worker is handled, waits, and is restarted. -/
theorem syswatch_restartsTheStopped_dynamicWorker : ∃ s s',
    run Favourable killsWorker (boot false) = some s ∧ run Favourable restartsWorker s = some s' ∧
    s.handled.length = 1 ∧ RestartsTheStopped s ∧
    List.Forall₂ RestartOf s.handled (s'.restarted.take s.handled.length) := by
  have hruns : ((run Favourable killsWorker (boot false)).bind fun s =>
      (run Favourable restartsWorker s).map fun s' =>
        (s.handled.length, s.sw.opStep, s.rounds, s'.rounds)) = some (1, 2, 75, 90) := by
    decide +kernel
  obtain ⟨s, hs, hrest⟩ := Option.bind_eq_some_iff.1 hruns
  obtain ⟨s', hs', heq⟩ := Option.map_eq_some_iff.1 hrest
  obtain ⟨hhandled, hstep, hrounds, hrounds'⟩ : s.handled.length = 1 ∧ s.sw.opStep = 2 ∧
      s.rounds = 75 ∧ s'.rounds = 90 := by
    simpa only [Prod.mk.injEq] using heq
  have h := syswatch_restartsTheStopped (boot_begins false) (reflTransGen_of_run hs)
  refine ⟨s, s', hs, hs', hhandled, h.1, h.2.2.2 s' (reflTransGen_of_run hs') hstep ?_⟩
  rw [hrounds, hrounds']
  decide

set_option maxRecDepth 20000 in
/-- A static worker is started anew in the heap's memory: its type was reset when it was removed. -/
theorem staticWorker_movedToHeap : ∃ s, run (fun _ _ => True) (killsWorker ++ restartsWorker)
    (boot true) = some s ∧ Begins (boot true) ∧ ¬ RestartsTheStopped s := by
  have hruns : (run (fun _ _ => True) (killsWorker ++ restartsWorker) (boot true)).map
      (fun s => (s.handled.map fun x => (x.1, x.2.isSystemobject), s.restarted.map Prod.fst)) =
        some ([(2, true)], [60]) := by
    decide +kernel
  obtain ⟨s, hs, heq⟩ := Option.map_eq_some_iff.1 hruns
  refine ⟨s, hs, boot_begins true, ?_⟩
  intro h
  obtain ⟨hhandled, hrestarted⟩ := Prod.mk.inj heq
  obtain ⟨x, rest, hx, hxeq, hrest⟩ := List.map_eq_cons_iff.1 hhandled
  obtain ⟨y, rest', hy, hyeq, hrest'⟩ := List.map_eq_cons_iff.1 hrestarted
  obtain rfl := List.map_eq_nil_iff.1 hrest
  obtain rfl := List.map_eq_nil_iff.1 hrest'
  obtain ⟨hxaddr, hxstatic⟩ := Prod.mk.inj hxeq
  have hall := h.restarted
  rw [hx, hy] at hall
  obtain ⟨hrestart, -⟩ := List.forall₂_cons.1 hall
  have haddr := (hrestart.inPlace hxstatic).1
  rw [hyeq, hxaddr] at haddr
  exact absurd haddr (by decide)

end RtThreadOta.Syswatch
