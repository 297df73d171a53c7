import Mathlib.Tactic.Basic

/-!
# Interaction programs

A `Prog` is a program seen from the outside world: it returns, halts, or asks the world one
operation and continues with the answer. The tree is finite, so a loop carries its own fuel.

Two readings of a program live here. `Prog.run` lets a handler answer the operations over a state
and may interrupt the program at any operation, and `Prog.wp` is the matching weakest precondition.
`Prog.Obeys` never looks at a state: it says which operations the program may ask for, whatever the
world answers. `Obeys.sim` joins the two: a program that obeys a protocol runs alike over two worlds
that a relation indexed by the protocol keeps together.
-/

namespace Interaction

variable {Op : Type} {Ans : Op → Type} {H S S' α β : Type}

/-- A program over the operations `Op`, where `o` is answered by an `Ans o`; `H` says why it may
halt without a result. -/
inductive Prog (Ans : Op → Type) (H α : Type) where
  | ret (a : α)
  | halt (h : H)
  | call (o : Op) (k : Ans o → Prog Ans H α)

namespace Prog

/-- Run `p`, then the program `f` makes of its result. -/
def bind : Prog Ans H α → (α → Prog Ans H β) → Prog Ans H β
  | ret a, f => f a
  | halt h, _ => halt h
  | call o k, f => call o fun r => (k r).bind f

instance : Monad (Prog Ans H) where
  pure := ret
  bind := bind

/-- The program that asks `o` and returns the answer. -/
def ask (o : Op) : Prog Ans H (Ans o) := call o ret

@[simp] theorem ret_bind (a : α) (f : α → Prog Ans H β) : (ret a >>= f) = f a := rfl

@[simp] theorem halt_bind (h : H) (f : α → Prog Ans H β) : (halt h >>= f) = halt h := rfl

@[simp] theorem call_bind (o : Op) (k : Ans o → Prog Ans H α) (f : α → Prog Ans H β) :
    (call o k >>= f) = call o fun r => k r >>= f := rfl

@[simp] theorem pure_eq_ret (a : α) : (pure a : Prog Ans H α) = ret a := rfl

end Prog

/-- How a run ends: with a result, halted by the program, or interrupted by the world. -/
inductive Outcome (H S α : Type) where
  | done (a : α) (s : S)
  | halted (h : H) (s : S)
  | cut (s : S)

/-- The state a run ends in. -/
def Outcome.state : Outcome H S α → S
  | done _ s => s
  | halted _ s => s
  | cut s => s

/-- A world: it answers an operation and moves on, or interrupts the program (`none`). -/
abbrev Handler (Ans : Op → Type) (S : Type) := (o : Op) → S → Option (Ans o) × S

namespace Prog

/-- Run a program in a world. -/
def run (hd : Handler Ans S) : Prog Ans H α → S → Outcome H S α
  | ret a, s => .done a s
  | halt h, s => .halted h s
  | call o k, s =>
    match hd o s with
    | (some r, s') => (k r).run hd s'
    | (none, s') => .cut s'

/-- Weakest precondition of a run: `Q` of the result and the state it ends in, `E` of the state
when the program halts (`some`) or is interrupted (`none`). -/
def wp (hd : Handler Ans S) : Prog Ans H α → (α → S → Prop) → (Option H → S → Prop) → S → Prop
  | ret a, Q, _, s => Q a s
  | halt h, _, E, s => E (some h) s
  | call o k, Q, E, s =>
    match hd o s with
    | (some r, s') => (k r).wp hd Q E s'
    | (none, s') => E none s'

variable {hd : Handler Ans S} {Q Q' : α → S → Prop} {E E' : Option H → S → Prop} {s : S}

@[simp] theorem wp_ret (a : α) : (ret a : Prog Ans H α).wp hd Q E s ↔ Q a s := Iff.rfl

@[simp] theorem wp_pure (a : α) : (pure a : Prog Ans H α).wp hd Q E s ↔ Q a s := Iff.rfl

@[simp] theorem wp_halt (h : H) : (halt h : Prog Ans H α).wp hd Q E s ↔ E (some h) s := Iff.rfl

/-- Sequencing: the continuation's precondition is the first program's postcondition. -/
@[simp] theorem wp_bind (p : Prog Ans H α) (f : α → Prog Ans H β) {R : β → S → Prop} :
    (p >>= f).wp hd R E s ↔ p.wp hd (fun a s' => (f a).wp hd R E s') E s := by
  induction p generalizing s with
  | ret a => exact Iff.rfl
  | halt h => exact Iff.rfl
  | call o k ih =>
    simp only [call_bind, wp]
    split
    · exact ih _
    · exact Iff.rfl

/-- One operation, answered by the world. -/
theorem wp_ask {o : Op} {Q : Ans o → S → Prop} :
    (ask o : Prog Ans H (Ans o)).wp hd Q E s ↔
      match hd o s with
      | (some r, s') => Q r s'
      | (none, s') => E none s' := by
  simp only [ask, wp]

/-- The weakest precondition speaks about the run. -/
theorem wp_iff_run (p : Prog Ans H α) :
    p.wp hd Q E s ↔
      match p.run hd s with
      | .done a s' => Q a s'
      | .halted h s' => E (some h) s'
      | .cut s' => E none s' := by
  induction p generalizing s with
  | ret a => exact Iff.rfl
  | halt h => exact Iff.rfl
  | call o k ih =>
    simp only [wp, run]
    split
    · exact ih _
    · exact Iff.rfl

/-- Weaken both postconditions. -/
theorem wp_mono {p : Prog Ans H α} (h : p.wp hd Q E s) (hQ : ∀ a s', Q a s' → Q' a s')
    (hE : ∀ h s', E h s' → E' h s') : p.wp hd Q' E' s := by
  induction p generalizing s with
  | ret a => exact hQ _ _ h
  | halt x => exact hE _ _ h
  | call o k ih =>
    simp only [wp] at h ⊢
    split at h
    · exact ih _ h
    · exact hE _ _ h

/-- Weaken the postcondition on results. -/
theorem wp_imp {p : Prog Ans H α} (h : p.wp hd Q E s) (hQ : ∀ a s', Q a s' → Q' a s') :
    p.wp hd Q' E s :=
  wp_mono h hQ fun _ _ he => he

/-- Two facts about one run hold together. -/
theorem wp_and {p : Prog Ans H α} (h : p.wp hd Q E s) (h' : p.wp hd Q' E' s) :
    p.wp hd (fun a s' => Q a s' ∧ Q' a s') (fun x s' => E x s' ∧ E' x s') s := by
  rw [wp_iff_run] at h h' ⊢
  cases hr : p.run hd s <;> rw [hr] at h h' <;> exact ⟨h, h'⟩

/-- A precondition that leaves no room for halting or interruption gives a result. -/
theorem run_done_of_wp {p : Prog Ans H α} (h : p.wp hd Q (fun _ _ => False) s) :
    ∃ a s', p.run hd s = .done a s' ∧ Q a s' := by
  rw [wp_iff_run] at h
  cases hr : p.run hd s with
  | done a s' => rw [hr] at h; exact ⟨a, s', rfl, h⟩
  | halted x s' => rw [hr] at h; exact h.elim
  | cut s' => rw [hr] at h; exact h.elim

/-- Running a sequence is running the first program and, on its result, the second. -/
theorem run_bind (p : Prog Ans H α) (f : α → Prog Ans H β) (s : S) :
    (p >>= f).run hd s =
      match p.run hd s with
      | .done a s' => (f a).run hd s'
      | .halted h s' => .halted h s'
      | .cut s' => .cut s' := by
  induction p generalizing s with
  | ret a => rfl
  | halt h => rfl
  | call o k ih =>
    simp only [call_bind, run]
    split
    · exact ih _ _
    · rfl

/-- A sequence keeps its result when its second half keeps it. -/
theorem run_bind_imp {p : Prog Ans H α} {f f' : α → Prog Ans H β} {b : β} {s s' : S}
    (h : (p >>= f).run hd s = .done b s')
    (hf : ∀ a t, (f a).run hd t = .done b s' → (f' a).run hd t = .done b s') :
    (p >>= f').run hd s = .done b s' := by
  rw [run_bind] at h ⊢
  cases hp : p.run hd s with
  | done a t =>
    rw [hp] at h
    exact hf a t h
  | halted x t =>
    rw [hp] at h
    cases h
  | cut t =>
    rw [hp] at h
    cases h

end Prog

/-! ## Protocols -/

/-- Which operations a program may ask for in a protocol state, and where an answer leads. -/
structure Protocol (Ans : Op → Type) (P : Type) where
  allow : P → Op → Prop
  next : P → (o : Op) → Ans o → P

namespace Prog

variable {P : Type}

/-- From protocol state `q` the program asks only for allowed operations, whatever the answers,
and a result `a` reached in state `q'` satisfies `post a q'`. -/
def Obeys (pr : Protocol Ans P) : Prog Ans H α → P → (α → P → Prop) → Prop
  | ret a, q, post => post a q
  | halt _, _, _ => True
  | call o k, q, post => pr.allow q o ∧ ∀ r, (k r).Obeys pr (pr.next q o r) post

variable {pr : Protocol Ans P} {post post' : α → P → Prop} {q : P}

@[simp] theorem obeys_ret (a : α) : (ret a : Prog Ans H α).Obeys pr q post ↔ post a q := Iff.rfl

@[simp] theorem obeys_halt (h : H) : (halt h : Prog Ans H α).Obeys pr q post ↔ True := Iff.rfl

@[simp] theorem obeys_ask {o : Op} {post : Ans o → P → Prop} :
    (ask o : Prog Ans H (Ans o)).Obeys pr q post ↔
      pr.allow q o ∧ ∀ r, post r (pr.next q o r) := Iff.rfl

@[simp] theorem obeys_bind (p : Prog Ans H α) (f : α → Prog Ans H β) {post : β → P → Prop} :
    (p >>= f).Obeys pr q post ↔ p.Obeys pr q fun a q' => (f a).Obeys pr q' post := by
  induction p generalizing q with
  | ret a => exact Iff.rfl
  | halt h => exact Iff.rfl
  | call o k ih =>
    simp only [call_bind, Obeys]
    exact and_congr_right fun _ => forall_congr' fun r => ih r

/-- Weaken what is promised of the result. -/
theorem Obeys.mono {p : Prog Ans H α} (h : p.Obeys pr q post)
    (hpost : ∀ a q', post a q' → post' a q') : p.Obeys pr q post' := by
  induction p generalizing q with
  | ret a => exact hpost _ _ h
  | halt x => trivial
  | call o k ih => exact ⟨h.1, fun r => ih r (h.2 r)⟩

/-- A relation between protocol state and world that every allowed operation keeps holds wherever
the run ends, also where the world interrupts it. -/
theorem Obeys.inv {p : Prog Ans H α} {hd : Handler Ans S} {s : S} (R : P → S → Prop)
    (I : S → Prop) (h : p.Obeys pr q post) (hR : R q s) (hI : ∀ q s, R q s → I s)
    (hstep : ∀ q o s, pr.allow q o → R q s →
      match hd o s with
      | (some r, s') => R (pr.next q o r) s'
      | (none, s') => I s') :
    p.wp hd (fun a s' => ∃ q', post a q' ∧ R q' s') (fun _ s' => I s') s := by
  induction p generalizing q s with
  | ret a => exact ⟨q, h, hR⟩
  | halt x => exact hI q s hR
  | call o k ih =>
    have hs := hstep q o s h.1 hR
    simp only [wp]
    split
    · rename_i r s' heq
      rw [heq] at hs
      exact ih r (h.2 r) hs
    · rename_i s' heq
      rw [heq] at hs
      exact hs

/-- Replaying a run in another world. The first world runs the program to its result `a`; as long
as the second world gives the same answers it stays related, and it either reaches the same result
or interrupts the program. `F` collects what the rest of the first run is known to do. -/
theorem Obeys.sim {p : Prog Ans H α} {hd : Handler Ans S} {hd' : Handler Ans S'}
    (F : P → S → S → Prop) (R : P → S → S' → Prop) (C : S' → Prop)
    (hF : ∀ (q : P) (p : Prog Ans H α) (s : S) (a : α) (s₁ : S),
      p.Obeys pr q post → p.run hd s = .done a s₁ → F q s s₁)
    {s₁ : S} {a : α}
    (hstep : ∀ q o s s' r t, pr.allow q o → R q s s' → hd o s = (some r, t) →
      F (pr.next q o r) t s₁ →
        (∃ t', hd' o s' = (some r, t') ∧ R (pr.next q o r) t t') ∨
        (∃ t', hd' o s' = (none, t') ∧ C t'))
    {s : S} {s' : S'} (h : p.Obeys pr q post) (hrun : p.run hd s = .done a s₁) (hR : R q s s') :
    (∃ q' s₁', p.run hd' s' = .done a s₁' ∧ post a q' ∧ R q' s₁ s₁') ∨
      (∃ t', p.run hd' s' = .cut t' ∧ C t') := by
  induction p generalizing q s s' with
  | ret b =>
    simp only [run, Outcome.done.injEq] at hrun
    obtain ⟨rfl, rfl⟩ := hrun
    exact Or.inl ⟨q, s', rfl, h, hR⟩
  | halt x => simp [run] at hrun
  | call o k ih =>
    simp only [run] at hrun
    split at hrun
    · rename_i r t heq
      rcases hstep q o s s' r t h.1 hR heq (hF _ _ _ _ _ (h.2 r) hrun) with
        ⟨t', heq', hR'⟩ | ⟨t', heq', hC⟩
      · simp only [run, heq']
        exact ih r (h.2 r) hrun hR'
      · simp only [run, heq']
        exact Or.inr ⟨t', rfl, hC⟩
    · simp at hrun

/-! ### Programs that ask only for some operations -/

/-- The program asks only for operations in `A`, whatever the answers. -/
def Only (A : Op → Prop) (p : Prog Ans H α) : Prop :=
  p.Obeys ⟨fun _ o => A o, fun _ _ _ => ()⟩ () fun _ _ => True

variable {A B : Op → Prop} {p : Prog Ans H α}

@[simp] theorem only_ret (a : α) : (ret a : Prog Ans H α).Only A := trivial

@[simp] theorem only_halt (h : H) : (halt h : Prog Ans H α).Only A := trivial

@[simp] theorem only_ask {o : Op} : (ask o : Prog Ans H (Ans o)).Only A ↔ A o :=
  ⟨fun h => h.1, fun h => ⟨h, fun _ => trivial⟩⟩

theorem Only.bind {f : α → Prog Ans H β} (hp : p.Only A) (hf : ∀ a, (f a).Only A) :
    (p >>= f).Only A :=
  (obeys_bind p f).2 (Obeys.mono hp fun a _ _ => hf a)

theorem Only.ite {c : Prop} [Decidable c] {q : Prog Ans H α} (hp : p.Only A) (hq : q.Only A) :
    (if c then p else q).Only A := by
  split
  · exact hp
  · exact hq

theorem Only.mono (h : p.Only A) (hAB : ∀ o, A o → B o) : p.Only B := by
  induction p with
  | ret a => trivial
  | halt x => trivial
  | call o k ih => exact ⟨hAB o h.1, fun r => ih r (h.2 r)⟩

/-- What every operation in `A` keeps, the program keeps. -/
theorem Only.inv {hd : Handler Ans S} (h : p.Only A) (I : S → Prop)
    (hstep : ∀ o s, A o → I s → I (hd o s).2) {s : S} (hs : I s) :
    p.wp hd (fun _ s' => I s') (fun _ s' => I s') s := by
  refine wp_imp (Obeys.inv (fun _ s => I s) I h hs (fun _ _ h => h) fun _ o s ha hi => ?_)
    fun _ _ ⟨_, _, h⟩ => h
  have := hstep o s ha hi
  split <;> rename_i heq <;> simpa only [heq] using this

/-- The program asks only for operations in `A`, and every result of it satisfies `T`. -/
def OnlyPost (A : Op → Prop) (p : Prog Ans H α) (T : α → Prop) : Prop :=
  p.Obeys ⟨fun _ o => A o, fun _ _ _ => ()⟩ () fun a _ => T a

section OnlyPost

variable {T T' : α → Prop} {U : β → Prop}

@[simp] theorem onlyPost_ret (a : α) : (ret a : Prog Ans H α).OnlyPost A T ↔ T a := Iff.rfl

@[simp] theorem onlyPost_halt (h : H) : (halt h : Prog Ans H α).OnlyPost A T := trivial

theorem onlyPost_ask {o : Op} {T : Ans o → Prop} (ho : A o) (h : ∀ r, T r) :
    (ask o : Prog Ans H (Ans o)).OnlyPost A T := ⟨ho, h⟩

theorem OnlyPost.bind {f : α → Prog Ans H β} (hp : p.OnlyPost A T)
    (hf : ∀ a, T a → (f a).OnlyPost A U) : (p >>= f).OnlyPost A U :=
  (obeys_bind p f).2 (Obeys.mono hp fun a _ ha => hf a ha)

theorem OnlyPost.imp (h : p.OnlyPost A T) (hpost : ∀ a, T a → T' a) :
    p.OnlyPost A T' := Obeys.mono h fun a _ ha => hpost a ha

theorem OnlyPost.mono (h : p.OnlyPost A T) (hAB : ∀ o, A o → B o) : p.OnlyPost B T := by
  induction p with
  | ret a => exact h
  | halt x => trivial
  | call o k ih => exact ⟨hAB o h.1, fun r => ih r (h.2 r)⟩

theorem OnlyPost.only (h : p.OnlyPost A T) : p.Only A := h.imp fun _ _ => trivial

theorem Only.onlyPost (h : p.Only A) : p.OnlyPost A fun _ => True := h

/-- What every operation in `A` keeps, the program keeps, and its result satisfies `T`. -/
theorem OnlyPost.inv {hd : Handler Ans S} (h : p.OnlyPost A T) (I : S → Prop)
    (hstep : ∀ o s, A o → I s → I (hd o s).2) {s : S} (hs : I s) :
    p.wp hd (fun a s' => T a ∧ I s') (fun _ s' => I s') s := by
  refine wp_imp (Obeys.inv (fun _ s => I s) I h hs (fun _ _ h => h) fun _ o s ha hi => ?_)
    fun _ _ ⟨_, hpost, hi⟩ => ⟨hpost, hi⟩
  have := hstep o s ha hi
  split <;> rename_i heq <;> simpa only [heq] using this

end OnlyPost

/-! ### Programs that halt only for some reasons -/

/-- Whatever the answers, every result satisfies `T` and every reason to halt is in `A`. -/
def Yields (A : H → Prop) (T : α → Prop) : Prog Ans H α → Prop
  | ret a => T a
  | halt h => A h
  | call _ k => ∀ r, (k r).Yields A T

section Yields

variable {A : H → Prop} {T T' : α → Prop} {U : β → Prop} {p : Prog Ans H α}

@[simp] theorem yields_ret (a : α) : (ret a : Prog Ans H α).Yields A T ↔ T a := Iff.rfl

@[simp] theorem yields_halt (h : H) : (halt h : Prog Ans H α).Yields A T ↔ A h := Iff.rfl

theorem Yields.bind {f : α → Prog Ans H β} (hp : p.Yields A T) (hf : ∀ a, T a → (f a).Yields A U) :
    (p >>= f).Yields A U := by
  induction p with
  | ret a => exact hf a hp
  | halt h => exact hp
  | call o k ih => exact fun r => ih r (hp r)

theorem Yields.imp (h : p.Yields A T) (hT : ∀ a, T a → T' a) : p.Yields A T' := by
  induction p with
  | ret a => exact hT a h
  | halt x => exact h
  | call o k ih => exact fun r => ih r (h r)

/-- So do the results of every run. -/
theorem Yields.wp {hd : Handler Ans S} (hp : p.Yields A T) (s : S) :
    p.wp hd (fun a _ => T a) (fun _ _ => True) s := by
  induction p generalizing s with
  | ret a => exact hp
  | halt h => trivial
  | call o k ih =>
    rw [Prog.wp]
    split
    · exact ih _ (hp _) _
    · trivial

/-- A run halts only for such a reason. -/
theorem Yields.halted {hd : Handler Ans S} {s s' : S} {h : H} (hp : p.Yields A T)
    (hrun : p.run hd s = .halted h s') : A h := by
  induction p generalizing s with
  | ret a => cases hrun
  | halt x =>
    cases hrun
    exact hp
  | call o k ih =>
    rw [run] at hrun
    split at hrun
    · exact ih _ (hp _) hrun
    · cases hrun

end Yields

/-! ### Two programs side by side -/

/-- Two programs, each in its own world, end alike: with results and states that `Q` relates, halted for
one reason, or both interrupted. -/
def Alike (hd : Handler Ans S) (hd' : Handler Ans S') (p : Prog Ans H α) (p' : Prog Ans H β)
    (Q : α → β → S → S' → Prop) (s : S) (s' : S') : Prop :=
  match p.run hd s, p'.run hd' s' with
  | .done a t, .done b t' => Q a b t t'
  | .halted h _, .halted h' _ => h = h'
  | .cut _, .cut _ => True
  | _, _ => False

section Alike

variable {hd : Handler Ans S} {hd' : Handler Ans S'} {p : Prog Ans H α} {p' : Prog Ans H β}
  {Q Q' : α → β → S → S' → Prop} {s : S} {s' : S'} {γ δ : Type}

@[simp] theorem alike_ret (a : α) (b : β) :
    Alike hd hd' (ret a : Prog Ans H α) (ret b) Q s s' ↔ Q a b s s' := Iff.rfl

theorem alike_halt (h : H) : Alike hd hd' (halt h : Prog Ans H α) (halt h) Q s s' := rfl

theorem Alike.mono (h : Alike hd hd' p p' Q s s') (hQ : ∀ a b t t', Q a b t t' → Q' a b t t') :
    Alike hd hd' p p' Q' s s' := by
  unfold Alike at h ⊢
  split at h
  · exact hQ _ _ _ _ h
  · exact h
  · trivial
  · exact h.elim

/-- Sequencing: the continuations are compared wherever the first programs lead. -/
theorem Alike.bind {f : α → Prog Ans H γ} {f' : β → Prog Ans H δ} {R : γ → δ → S → S' → Prop}
    (h : Alike hd hd' p p' (fun a b t t' => Alike hd hd' (f a) (f' b) R t t') s s') :
    Alike hd hd' (p >>= f) (p' >>= f') R s s' := by
  unfold Alike at h
  unfold Alike
  rw [run_bind, run_bind]
  split at h <;> rename_i heq heq'
  · rw [heq, heq']
    exact h
  · rw [heq, heq']
    exact h
  · rw [heq, heq']
    trivial
  · exact h.elim

/-- Two runs that are known to give results. -/
theorem alike_of_wp {F : α → S → Prop} {G : β → S' → Prop}
    (h : p.wp hd F (fun _ _ => False) s) (h' : p'.wp hd' G (fun _ _ => False) s')
    (hQ : ∀ a b t t', F a t → G b t' → Q a b t t') : Alike hd hd' p p' Q s s' := by
  obtain ⟨a, t, hrun, ha⟩ := run_done_of_wp h
  obtain ⟨b, t', hrun', hb⟩ := run_done_of_wp h'
  unfold Alike
  rw [hrun, hrun']
  exact hQ a b t t' ha hb

/-- A program that asks nothing gives one result in every world and moves none. -/
theorem Only.alike {Q : α → α → S → S' → Prop} (h : p.Only fun _ => False)
    (hQ : ∀ a, Q a a s s') : Alike hd hd' p p Q s s' := by
  induction p with
  | ret a => exact hQ a
  | halt x => exact alike_halt x
  | call o k _ => exact h.1.elim

/-- A program run twice from one state. -/
theorem alike_self {Q : α → α → S → S → Prop} {s : S} {F : α → S → Prop}
    (h : p.wp hd F (fun _ _ => True) s) (hQ : ∀ a t, F a t → Q a a t t) :
    Alike hd hd p p Q s s := by
  rw [wp_iff_run] at h
  unfold Alike
  split
  · rename_i heq heq'
    rw [heq] at h heq'
    cases heq'
    exact hQ _ _ h
  · rename_i heq heq'
    rw [heq] at heq'
    cases heq'
    rfl
  · trivial
  · rename_i hdone hhalted hcut
    cases hrun : p.run hd s with
    | done a t => exact hdone _ _ _ _ hrun hrun
    | halted x t => exact hhalted _ _ _ _ hrun hrun
    | cut t => exact hcut _ _ hrun hrun

/-- A result on one side is a result on the other. -/
theorem Alike.done {a : α} {t : S} (h : Alike hd hd' p p' Q s s') (hrun : p.run hd s = .done a t) :
    ∃ b t', p'.run hd' s' = .done b t' ∧ Q a b t t' := by
  unfold Alike at h
  rw [hrun] at h
  split at h <;> rename_i heq heq'
  · cases heq
    exact ⟨_, _, heq', h⟩
  · cases heq
  · cases heq
  · exact h.elim

theorem Alike.symm (h : Alike hd hd' p p' Q s s') :
    Alike hd' hd p' p (fun b a t' t => Q a b t t') s' s := by
  unfold Alike at h ⊢
  split at h <;> rename_i heq heq'
  · rw [heq, heq']
    exact h
  · rw [heq, heq']
    exact h.symm
  · rw [heq, heq']
    trivial
  · exact h.elim

end Alike

end Prog

end Interaction
