import Mathlib.Data.Finset.Basic
import TrigEmitKafka.Support.Prog

/-!
# Support — threads under one readers-writer lock

Threads run programs over the operations `Op` and the three calls on a readers-writer lock.  The
state is in two parts: `τ`, which the lock guards, and `δ`, which changes whether or not the
lock is held.  An environment takes steps of its own, on `δ` alone.

`Iface` says how an operation acts, what the environment may do, and what an operation needs in
order not to be undefined behaviour (`valid`).  An operation's outcome may depend on an answer
`Ans` from outside the program: an allocation that fails, a message that is refused.

* `Cfg.step`: every thread at its own position, any of them taking the next step, the
  environment in between; `hist` records the calls that returned.
* `exec`: one program run from start to end with only the environment in between, which is what
  a thread sees of itself while it holds the lock for writing.

Both take the head call of a program with `headStep`, so a program has one meaning.
-/

namespace Conc

/-- How a thread holds the lock. -/
inductive Held where
  | none
  | rd
  | wr
  deriving DecidableEq, Repr

/-- A readers-writer lock: the threads reading, or the one writing. -/
inductive Lock where
  | reading (rs : Finset Nat)
  | writing (t : Nat)

namespace Lock

/-- The lock nobody holds. -/
def free : Lock := .reading ∅

/-- How `t` holds the lock. -/
def held (t : Nat) : Lock → Held
  | .reading rs => if t ∈ rs then .rd else .none
  | .writing u  => if u = t then .wr else .none

/-- A reader waits for the writer. -/
def rdlock (t : Nat) : Lock → Option Lock
  | .reading rs => some (.reading (insert t rs))
  | .writing _  => none

/-- A writer waits for everyone. -/
def wrlock (t : Nat) : Lock → Option Lock
  | .reading rs => if rs = ∅ then some (.writing t) else none
  | .writing _  => none

def unlock (t : Nat) : Lock → Lock
  | .reading rs => .reading (rs.erase t)
  | .writing u  => if u = t then free else .writing u

/-- No thread is writing. -/
def NoWriter : Lock → Prop
  | .reading _ => True
  | .writing _ => False

instance : (l : Lock) → Decidable l.NoWriter
  | .reading _ => .isTrue trivial
  | .writing _ => .isFalse id

@[simp] theorem held_free (t : Nat) : free.held t = .none := by simp [free, held]

/-- Held by nobody, the lock is free. -/
theorem eq_free {l : Lock} {t : Nat} (ht : l.held t = .none) (h : ∀ u, u ≠ t → l.held u = .none) :
    l = free := by
  cases l with
  | reading rs =>
      refine congrArg Lock.reading (Finset.eq_empty_of_forall_notMem fun u hu => ?_)
      by_cases e : u = t
      · subst e; simp [held, hu] at ht
      · have := h u e
        simp [held, hu] at this
  | writing u =>
      by_cases e : u = t
      · subst e; simp [held] at ht
      · have := h u e
        simp [held] at this

theorem noWriter_of_held {l : Lock} {t : Nat} (h : l.held t = .rd) : l.NoWriter := by
  cases l with
  | reading rs => trivial
  | writing u => simp only [held] at h; split at h <;> cases h

/-- While `t` writes, no other thread holds the lock. -/
theorem held_of_wr {l : Lock} {t u : Nat} (h : l.held t = .wr) (hu : u ≠ t) :
    l.held u = .none := by
  cases l with
  | reading rs => simp only [held] at h; split at h <;> cases h
  | writing v =>
      simp only [held] at h ⊢
      split at h
      · rename_i e; exact if_neg fun e' => hu (e'.symm.trans e)
      · cases h

theorem rdlock_spec {l l' : Lock} {t : Nat} (h : l.rdlock t = some l') :
    l.NoWriter ∧ l'.NoWriter ∧ l'.held t = .rd ∧ ∀ u, u ≠ t → l'.held u = l.held u := by
  cases l with
  | reading rs =>
      cases h
      refine ⟨trivial, trivial, by simp [held], fun u hu => ?_⟩
      simp [held, Finset.mem_insert, hu]
  | writing u => cases h

theorem wrlock_spec {l l' : Lock} {t : Nat} (h : l.wrlock t = some l') :
    l.NoWriter ∧ l'.held t = .wr ∧ (∀ u, l.held u = .none) ∧ ∀ u, u ≠ t → l'.held u = .none := by
  cases l with
  | reading rs =>
      simp only [wrlock] at h
      split at h
      · rename_i e
        cases h
        refine ⟨trivial, by simp [held], fun u => by simp [held, e], fun u hu => ?_⟩
        simp [held, Ne.symm hu]
      · cases h
  | writing u => cases h

theorem unlock_spec {l : Lock} {t : Nat} (h : l.held t ≠ .none) :
    (l.unlock t).held t = .none ∧ (l.unlock t).NoWriter ∧
      ∀ u, u ≠ t → (l.unlock t).held u = l.held u := by
  cases l with
  | reading rs =>
      refine ⟨by simp [unlock, held], trivial, fun u hu => ?_⟩
      simp [unlock, held, hu]
  | writing v =>
      by_cases e : v = t
      · subst e
        refine ⟨by simp [unlock], by simp [unlock, free, NoWriter], fun u hu => ?_⟩
        rw [unlock, if_pos rfl, held_free, held, if_neg (Ne.symm hu)]
      · simp [held, e] at h

end Lock

/-- A call of a program: on the lock, or an operation. -/
inductive LockCall (Op : Type) where
  | rdlock
  | wrlock
  | unlock
  | op (o : Op)

/-- What a call returns. -/
@[reducible]
def LockCall.Res {Op : Type} (R : Op → Type) : LockCall Op → Type
  | .op o => R o
  | _     => Unit

/-- A program over the operations `Op` and the lock. -/
abbrev LProg (Op : Type) (R : Op → Type) := Prog (LockCall Op) (LockCall.Res R)

namespace LProg

variable {Op : Type} {R : Op → Type}

def rdlock : LProg Op R Unit := Prog.emit (R := LockCall.Res R) .rdlock
def wrlock : LProg Op R Unit := Prog.emit (R := LockCall.Res R) .wrlock
def unlock : LProg Op R Unit := Prog.emit (R := LockCall.Res R) .unlock
def op (o : Op) : LProg Op R (R o) := Prog.emit (R := LockCall.Res R) (.op o)

/-- The program does not repeat, and every operation it may come to is one of `P`. -/
def Straight (P : Op → Prop) {α : Type} (p : LProg Op R α) : Prop :=
  Prog.Straight (fun | .op o => P o | _ => True) p

theorem Straight.pure {P : Op → Prop} {α : Type} {a : α} : (Pure.pure a : LProg Op R α).Straight P :=
  trivial

theorem Straight.call {P : Op → Prop} {o : Op} (ho : P o) : (op o : LProg Op R (R o)).Straight P :=
  ⟨ho, fun _ => trivial⟩

theorem Straight.op {P : Op → Prop} {α : Type} {o : Op} {k : R o → LProg Op R α} (ho : P o)
    (hk : ∀ r, (k r).Straight P) : (op o >>= k).Straight P :=
  ⟨ho, hk⟩

theorem Straight.bind {P : Op → Prop} {α γ : Type} {p : LProg Op R α} {f : α → LProg Op R γ}
    (hp : p.Straight P) (hf : ∀ a, (f a).Straight P) : (p >>= f).Straight P :=
  Prog.Straight.bind hp hf

theorem Straight.mono {P Q : Op → Prop} (h : ∀ o, P o → Q o) {α : Type} {p : LProg Op R α}
    (hp : p.Straight P) : p.Straight Q := by
  refine Prog.Straight.mono (fun c hc => ?_) hp
  cases c with
  | op o => exact h o hc
  | _ => trivial

end LProg

/-- What the operations do and need, and what the environment may do. -/
structure Iface (τ δ Op : Type) (R : Op → Type) (Ans Ev : Type) where
  /-- Thread `t`'s operation at an answer: its result and the new state, or not possible. -/
  act : Nat → (o : Op) → Ans → τ → δ → Option (R o × τ × δ)
  env : Ev → τ → δ → Option δ
  /-- The operation is defined behaviour for thread `t` when it so holds the lock. -/
  valid : Nat → Held → (o : Op) → τ → δ → Prop

section machine

variable {τ δ Op : Type} {R : Op → Type} {Ans Ev : Type}
variable (I : Iface τ δ Op R Ans Ev)

/-- Thread `t` takes the head call of its program. -/
def headStep (t : Nat) (a : Ans) {α : Type} :
    LProg Op R α → Lock → τ → δ → Option (LProg Op R α × Lock × τ × δ)
  | .ret _,            _, _, _ => none
  | .call .rdlock k,   l, T, d => (l.rdlock t).map fun l' => (k (), l', T, d)
  | .call .wrlock k,   l, T, d => (l.wrlock t).map fun l' => (k (), l', T, d)
  | .call .unlock k,   l, T, d => some (k (), l.unlock t, T, d)
  | .call (.op o) k,   l, T, d => (I.act t o a T d).map fun r => (k r.1, l, r.2.1, r.2.2)
  | .loop body k,      l, T, d => some (Prog.unroll body k, l, T, d)

variable {I}

/-- A step of a program leaves both parts of the state, or is an operation. -/
theorem headStep_act {t : Nat} {a : Ans} {α : Type} {p p' : LProg Op R α} {l l' : Lock} {T T' : τ}
    {d d' : δ} (h : headStep I t a p l T d = some (p', l', T', d')) :
    (T' = T ∧ d' = d) ∨
      ∃ o k r, p = .call (.op o) k ∧ I.act t o a T d = some (r, T', d') ∧ p' = k r := by
  cases p with
  | ret x => cases h
  | loop body k => cases h; exact Or.inl ⟨rfl, rfl⟩
  | call c k =>
      cases c with
      | rdlock =>
          obtain ⟨_, _, e⟩ := Option.map_eq_some_iff.mp h
          cases e; exact Or.inl ⟨rfl, rfl⟩
      | wrlock =>
          obtain ⟨_, _, e⟩ := Option.map_eq_some_iff.mp h
          cases e; exact Or.inl ⟨rfl, rfl⟩
      | unlock => cases h; exact Or.inl ⟨rfl, rfl⟩
      | op o =>
          obtain ⟨r, hr, e⟩ := Option.map_eq_some_iff.mp h
          cases e; exact Or.inr ⟨o, k, r.1, rfl, hr, rfl⟩

/-- A step of a straight program leaves one. -/
theorem headStep_straight {A : Op → Prop} {t : Nat} {a : Ans} {α : Type} {p p' : LProg Op R α}
    {l l' : Lock} {T T' : τ} {d d' : δ} (hp : p.Straight A)
    (h : headStep I t a p l T d = some (p', l', T', d')) :
    p'.Straight A ∧ ((T' = T ∧ d' = d) ∨ ∃ o r, A o ∧ I.act t o a T d = some (r, T', d')) := by
  cases p with
  | ret x => cases h
  | loop body k => exact hp.elim
  | call c k =>
      obtain ⟨hc, hk⟩ := hp
      cases c with
      | rdlock =>
          obtain ⟨_, _, e⟩ := Option.map_eq_some_iff.mp h
          cases e; exact ⟨hk _, Or.inl ⟨rfl, rfl⟩⟩
      | wrlock =>
          obtain ⟨_, _, e⟩ := Option.map_eq_some_iff.mp h
          cases e; exact ⟨hk _, Or.inl ⟨rfl, rfl⟩⟩
      | unlock => cases h; exact ⟨hk _, Or.inl ⟨rfl, rfl⟩⟩
      | op o =>
          obtain ⟨r, hr, e⟩ := Option.map_eq_some_iff.mp h
          cases e; exact ⟨hk _, Or.inr ⟨o, r.1, hc, hr⟩⟩

variable (I)

/-! ### Every thread at once -/

/-- A call in progress: what it is a call of, and what is left of it. -/
structure Task (Op : Type) (R : Op → Type) (Call : Type) (Ret : Call → Type) where
  call : Call
  rest : LProg Op R (Ret call)

/-- A configuration: the two parts of the state, the lock, the threads, the finished calls. -/
structure Cfg (τ δ Op : Type) (R : Op → Type) (Call : Type) (Ret : Call → Type) where
  sh : τ
  fr : δ
  lock : Lock
  thr : Nat → Option (Task Op R Call Ret)
  hist : List (Nat × (c : Call) × Ret c)

/-- What can happen next. -/
inductive Label (Ans Ev Call : Type) where
  | start (t : Nat) (c : Call)
  | step (t : Nat) (a : Ans)
  | finish (t : Nat)
  | env (e : Ev)

/-- The thread that takes the step, if one does. -/
def Label.thread {Ans Ev Call : Type} : Label Ans Ev Call → Option Nat
  | .start t _ | .step t _ | .finish t => some t
  | .env _                             => none

variable {Call : Type} {Ret : Call → Type}

/-- The initial configuration: no thread at work, the lock free. -/
def Cfg.init (T : τ) (d : δ) : Cfg τ δ Op R Call Ret :=
  ⟨T, d, .free, fun _ => none, []⟩

/-- The operation a thread is about to take. -/
def Cfg.next (s : Cfg τ δ Op R Call Ret) (t : Nat) : Option Op :=
  match s.thr t with
  | some ⟨_, .call (.op o) _⟩ => some o
  | _                         => none

theorem Cfg.next_eq_some {s : Cfg τ δ Op R Call Ret} {t : Nat} {o : Op} :
    s.next t = some o ↔ ∃ c k, s.thr t = some ⟨c, .call (.op o) k⟩ := by
  constructor
  · intro h
    unfold Cfg.next at h
    split at h
    · rename_i c o' k ht
      cases h
      exact ⟨c, k, ht⟩
    · cases h
  · rintro ⟨c, k, ht⟩
    rw [Cfg.next, ht]

variable (prog : (c : Call) → LProg Op R (Ret c))

/-- One step of the machine. -/
def Cfg.step : Label Ans Ev Call → Cfg τ δ Op R Call Ret → Option (Cfg τ δ Op R Call Ret)
  | .start t c, s =>
      match s.thr t with
      | none   => some { s with thr := Function.update s.thr t (some ⟨c, prog c⟩) }
      | some _ => none
  | .step t a, s =>
      match s.thr t with
      | none      => none
      | some task =>
          (headStep I t a task.rest s.lock s.sh s.fr).map fun r =>
            { s with
              sh := r.2.2.1, fr := r.2.2.2, lock := r.2.1
              thr := Function.update s.thr t (some ⟨task.call, r.1⟩) }
  | .finish t, s =>
      match s.thr t with
      | some ⟨c, .ret x⟩ =>
          some { s with thr := Function.update s.thr t none, hist := s.hist ++ [(t, ⟨c, x⟩)] }
      | _ => none
  | .env e, s => (I.env e s.sh s.fr).map fun d => { s with fr := d }

/-- A thread that can take its head call takes a step. -/
theorem Cfg.step_head {s : Cfg τ δ Op R Call Ret} {t : Nat} {a : Ans} {task : Task Op R Call Ret}
    {r : LProg Op R (Ret task.call) × Lock × τ × δ} (ht : s.thr t = some task)
    (hr : headStep I t a task.rest s.lock s.sh s.fr = some r) :
    s.step I prog (.step t a) = some
      { s with
        sh := r.2.2.1, fr := r.2.2.2, lock := r.2.1
        thr := Function.update s.thr t (some ⟨task.call, r.1⟩) } := by
  simp only [Cfg.step, ht, hr, Option.map_some]

/-- A run: the configurations it passes are those of its prefixes. -/
def Cfg.run (ls : List (Label Ans Ev Call)) (s : Cfg τ δ Op R Call Ret) :
    Option (Cfg τ δ Op R Call Ret) :=
  ls.foldlM (fun s l => s.step I prog l) s

/-- `s'` is reachable from `s`. -/
inductive Cfg.Reach (s : Cfg τ δ Op R Call Ret) : Cfg τ δ Op R Call Ret → Prop where
  | refl : Cfg.Reach s s
  | step {s₁ s₂ : Cfg τ δ Op R Call Ret} (l : Label Ans Ev Call) :
      Cfg.Reach s s₁ → s₁.step I prog l = some s₂ → Cfg.Reach s s₂

/-- A run from `s`, each step of which meets `C` in the state it is taken in. -/
inductive Cfg.RunBy (C : Cfg τ δ Op R Call Ret → Label Ans Ev Call → Prop)
    (s : Cfg τ δ Op R Call Ret) : List (Label Ans Ev Call) → Cfg τ δ Op R Call Ret → Prop where
  | nil : Cfg.RunBy C s [] s
  | snoc {ls : List (Label Ans Ev Call)} {s₁ s₂ : Cfg τ δ Op R Call Ret} (l : Label Ans Ev Call) :
      Cfg.RunBy C s ls s₁ → C s₁ l → s₁.step I prog l = some s₂ → Cfg.RunBy C s (ls ++ [l]) s₂

/-- A run that stops at the first step `check` refuses. -/
def Cfg.runIf (check : Cfg τ δ Op R Call Ret → Label Ans Ev Call → Bool)
    (ls : List (Label Ans Ev Call)) (s : Cfg τ δ Op R Call Ret) : Option (Cfg τ δ Op R Call Ret) :=
  ls.foldlM (fun s l => if check s l then s.step I prog l else none) s

variable {I prog}

theorem Cfg.Reach.trans {s₁ s₂ s₃ : Cfg τ δ Op R Call Ret} (h : Cfg.Reach I prog s₁ s₂)
    (h' : Cfg.Reach I prog s₂ s₃) : Cfg.Reach I prog s₁ s₃ := by
  induction h' with
  | refl => exact h
  | step l _ hs ih => exact ih.step l hs

/-- What a run passes is reachable. -/
theorem Cfg.reach_of_run {ls : List (Label Ans Ev Call)} {s s' : Cfg τ δ Op R Call Ret}
    (h : Cfg.run I prog ls s = some s') : Cfg.Reach I prog s s' := by
  induction ls generalizing s with
  | nil => cases h; exact .refl
  | cons l ls ih =>
      obtain ⟨s₁, h₁, h₂⟩ := Option.bind_eq_some_iff.mp h
      exact (Cfg.Reach.refl.step l h₁).trans (ih h₂)

theorem Cfg.run_append (ls ls' : List (Label Ans Ev Call)) (s : Cfg τ δ Op R Call Ret) :
    Cfg.run I prog (ls ++ ls') s = (Cfg.run I prog ls s).bind (Cfg.run I prog ls') := by
  rw [Cfg.run, List.foldlM_append]
  rfl

/-- A run whose steps meet a condition is a run. -/
theorem Cfg.RunBy.run {C : Cfg τ δ Op R Call Ret → Label Ans Ev Call → Prop}
    {ls : List (Label Ans Ev Call)} {s s' : Cfg τ δ Op R Call Ret}
    (h : Cfg.RunBy I prog C s ls s') : Cfg.run I prog ls s = some s' := by
  induction h with
  | nil => rfl
  | snoc l _ _ hs ih =>
      rw [Cfg.run_append, ih, Option.bind_some]
      exact Option.bind_eq_some_iff.mpr ⟨_, hs, rfl⟩

theorem Cfg.RunBy.reach {C : Cfg τ δ Op R Call Ret → Label Ans Ev Call → Prop}
    {ls : List (Label Ans Ev Call)} {s s' : Cfg τ δ Op R Call Ret}
    (h : Cfg.RunBy I prog C s ls s') : Cfg.Reach I prog s s' := Cfg.reach_of_run h.run

theorem Cfg.RunBy.mono {C D : Cfg τ δ Op R Call Ret → Label Ans Ev Call → Prop}
    (hCD : ∀ s l, C s l → D s l) {ls : List (Label Ans Ev Call)} {s s' : Cfg τ δ Op R Call Ret}
    (h : Cfg.RunBy I prog C s ls s') : Cfg.RunBy I prog D s ls s' := by
  induction h with
  | nil => exact .nil
  | snoc l _ hl hs ih => exact ih.snoc l (hCD _ l hl) hs

/-- What is reachable is reached by a run. -/
theorem Cfg.Reach.runBy {s s' : Cfg τ δ Op R Call Ret} (h : Cfg.Reach I prog s s') :
    ∃ ls, Cfg.RunBy I prog (fun _ _ => True) s ls s' := by
  induction h with
  | refl => exact ⟨[], .nil⟩
  | step l _ hs ih =>
      obtain ⟨ls, hls⟩ := ih
      exact ⟨ls ++ [l], hls.snoc l trivial hs⟩

/-- A checked run is a run whose steps meet what is checked. -/
theorem Cfg.runBy_of_runIf {C : Cfg τ δ Op R Call Ret → Label Ans Ev Call → Prop}
    {check : Cfg τ δ Op R Call Ret → Label Ans Ev Call → Bool}
    (hcheck : ∀ s l, check s l = true → C s l) {ls : List (Label Ans Ev Call)}
    {s s' : Cfg τ δ Op R Call Ret} (h : Cfg.runIf I prog check ls s = some s') :
    Cfg.RunBy I prog C s ls s' := by
  have hfrom : ∀ (ls done : List (Label Ans Ev Call)) (s₁ : Cfg τ δ Op R Call Ret),
      Cfg.RunBy I prog C s done s₁ → Cfg.runIf I prog check ls s₁ = some s' →
      Cfg.RunBy I prog C s (done ++ ls) s' := by
    intro ls
    induction ls with
    | nil =>
        intro done s₁ hdone h₁
        cases h₁
        rw [List.append_nil]
        exact hdone
    | cons l ls ih =>
        intro done s₁ hdone h₁
        obtain ⟨s₂, hif, h₂⟩ := Option.bind_eq_some_iff.mp h₁
        obtain ⟨hc, hs⟩ := Option.ite_none_right_eq_some.mp hif
        have := ih _ s₂ (hdone.snoc l (hcheck s₁ l hc) hs) h₂
        rwa [List.append_assoc] at this
  exact hfrom ls [] s .nil h

/-- A step of another thread, or of the environment, leaves a thread where it is. -/
theorem Cfg.step_of_ne {s s' : Cfg τ δ Op R Call Ret} {l : Label Ans Ev Call} {t : Nat}
    (h : s.step I prog l = some s') (hl : l.thread ≠ some t) : s'.thr t = s.thr t := by
  cases l with
  | env e =>
      obtain ⟨d, -, rfl⟩ := Option.map_eq_some_iff.mp h
      rfl
  | start u c =>
      have hu : t ≠ u := fun e => hl (e ▸ rfl)
      simp only [Cfg.step] at h
      split at h <;> cases h
      exact Function.update_of_ne hu _ _
  | finish u =>
      have hu : t ≠ u := fun e => hl (e ▸ rfl)
      simp only [Cfg.step] at h
      split at h <;> cases h
      exact Function.update_of_ne hu _ _
  | step u a =>
      have hu : t ≠ u := fun e => hl (e ▸ rfl)
      simp only [Cfg.step] at h
      split at h
      · cases h
      · obtain ⟨x, -, rfl⟩ := Option.map_eq_some_iff.mp h
        exact Function.update_of_ne hu _ _

/-- A thread about to take an operation stays there until it takes a step. -/
theorem Cfg.step_next {s s' : Cfg τ δ Op R Call Ret} {l : Label Ans Ev Call} {t : Nat} {o : Op}
    (h : s.step I prog l = some s') (hs : s.next t = some o) (hl : ∀ a, l ≠ .step t a) :
    s'.next t = some o := by
  obtain ⟨c, k, ht⟩ := Cfg.next_eq_some.mp hs
  have hne : l.thread ≠ some t := by
    intro e
    cases l with
    | env e' => cases e
    | start u c' => cases e; simp only [Cfg.step, ht] at h; cases h
    | finish u => cases e; simp only [Cfg.step, ht] at h; cases h
    | step u a => cases e; exact hl a rfl
  exact Cfg.next_eq_some.mpr ⟨c, k, (Cfg.step_of_ne h hne).trans ht⟩

/-- A run that is none of a thread's leaves it where it is. -/
theorem Cfg.run_of_ne {ls : List (Label Ans Ev Call)} {s s' : Cfg τ δ Op R Call Ret} {t : Nat}
    (h : Cfg.run I prog ls s = some s') (hl : ∀ l ∈ ls, l.thread ≠ some t) :
    s'.thr t = s.thr t := by
  induction ls generalizing s with
  | nil => cases h; rfl
  | cons l ls ih =>
      obtain ⟨s₁, h₁, h₂⟩ := Option.bind_eq_some_iff.mp h
      exact (ih h₂ fun l' hl' => hl l' (List.mem_cons_of_mem l hl')).trans
        (Cfg.step_of_ne h₁ (hl l List.mem_cons_self))

/-- A thread that is about to take an operation takes it. -/
theorem Cfg.step_op {s s' : Cfg τ δ Op R Call Ret} {t : Nat} {a : Ans} {c : Call} {o : Op}
    {k : R o → LProg Op R (Ret c)} (h : s.step I prog (.step t a) = some s')
    (hs : s.thr t = some ⟨c, LProg.op o >>= k⟩) :
    ∃ r, I.act t o a s.sh s.fr = some (r, s'.sh, s'.fr) ∧ s'.thr t = some ⟨c, k r⟩ := by
  have hcall : (LProg.op o >>= k : LProg Op R (Ret c)) = .call (.op o) k := rfl
  rw [hcall] at hs
  simp only [Cfg.step, hs, headStep, Option.map_map] at h
  obtain ⟨⟨r, T, d⟩, ha, rfl⟩ := Option.map_eq_some_iff.mp h
  exact ⟨r, ha, Function.update_self ..⟩

/-- **The next operation of a thread**: a run in which its call comes to its value passes the step
that takes it. -/
theorem Cfg.run_op {ls : List (Label Ans Ev Call)} {s s' : Cfg τ δ Op R Call Ret} {t : Nat}
    {c : Call} {o : Op} {k : R o → LProg Op R (Ret c)} {x : Ret c}
    (hrun : Cfg.run I prog ls s = some s') (hs : s.thr t = some ⟨c, LProg.op o >>= k⟩)
    (hs' : s'.thr t = some ⟨c, .ret x⟩) :
    ∃ l₁ a l₂ s₁ r T d s₂, ls = l₁ ++ .step t a :: l₂ ∧ Cfg.run I prog l₁ s = some s₁ ∧
      I.act t o a s₁.sh s₁.fr = some (r, T, d) ∧ s₁.step I prog (.step t a) = some s₂ ∧
      s₂.sh = T ∧ s₂.thr t = some ⟨c, k r⟩ ∧ Cfg.run I prog l₂ s₂ = some s' := by
  have hcall : (LProg.op o >>= k : LProg Op R (Ret c)) = .call (.op o) k := rfl
  rw [hcall] at hs
  induction ls generalizing s with
  | nil =>
      cases hrun
      rw [hs] at hs'
      cases hs'
  | cons l ls ih =>
      obtain ⟨s₁, h₁, h₂⟩ := Option.bind_eq_some_iff.mp hrun
      by_cases hl : l.thread = some t
      · cases l with
        | env e => cases hl
        | start u c' => cases hl; simp only [Cfg.step, hs] at h₁; cases h₁
        | finish u => cases hl; simp only [Cfg.step, hs] at h₁; cases h₁
        | step u a =>
            cases hl
            obtain ⟨r, ha, hk⟩ := Cfg.step_op (o := o) (k := k) h₁ hs
            exact ⟨[], a, ls, s, r, s₁.sh, s₁.fr, s₁, rfl, rfl, ha, h₁, rfl, hk, h₂⟩
      · obtain ⟨l₁, a, l₂, s₂, r, T, d, s₃, rfl, hrest⟩ := ih h₂ ((Cfg.step_of_ne h₁ hl).trans hs)
        refine ⟨l :: l₁, a, l₂, s₂, r, T, d, s₃, rfl, ?_, hrest.2⟩
        exact Option.bind_eq_some_iff.mpr ⟨s₁, h₁, hrest.1⟩

/-- A call that has come to its value stays there until it returns. -/
theorem Cfg.run_ret {ls : List (Label Ans Ev Call)} {s s' : Cfg τ δ Op R Call Ret} {t : Nat}
    {c : Call} {x : Ret c} (hrun : Cfg.run I prog ls s = some s')
    (hs : s.thr t = some ⟨c, .ret x⟩) (hno : Label.finish t ∉ ls) :
    s'.thr t = some ⟨c, .ret x⟩ := by
  induction ls generalizing s with
  | nil => cases hrun; exact hs
  | cons l ls ih =>
      obtain ⟨s₁, h₁, h₂⟩ := Option.bind_eq_some_iff.mp hrun
      have hne : l.thread ≠ some t := by
        intro hl
        cases l with
        | env e => cases hl
        | start u c' => cases hl; simp only [Cfg.step, hs] at h₁; cases h₁
        | finish u => cases hl; exact hno List.mem_cons_self
        | step u a => cases hl; simp only [Cfg.step, hs] at h₁; cases h₁
      exact ih h₂ ((Cfg.step_of_ne h₁ hne).trans hs) fun hm => hno (List.mem_cons_of_mem _ hm)

/-- What a step does to the state: nothing, or an operation, or a step of the environment. -/
theorem Cfg.step_act {s s' : Cfg τ δ Op R Call Ret} {l : Label Ans Ev Call}
    (h : s.step I prog l = some s') :
    (s'.sh = s.sh ∧ s'.fr = s.fr) ∨
      (∃ t o a r, l = .step t a ∧ s.next t = some o ∧
        I.act t o a s.sh s.fr = some (r, s'.sh, s'.fr)) ∨
      (s'.sh = s.sh ∧ ∃ e, l = .env e ∧ I.env e s.sh s.fr = some s'.fr) := by
  cases l with
  | start t c =>
      simp only [Cfg.step] at h
      split at h <;> cases h
      exact Or.inl ⟨rfl, rfl⟩
  | finish t =>
      simp only [Cfg.step] at h
      split at h <;> cases h
      exact Or.inl ⟨rfl, rfl⟩
  | env e =>
      obtain ⟨d, hd, rfl⟩ := Option.map_eq_some_iff.mp h
      exact Or.inr (Or.inr ⟨rfl, e, rfl, hd⟩)
  | step t a =>
      simp only [Cfg.step] at h
      split at h
      · cases h
      · rename_i task ht
        obtain ⟨⟨p', l', T', d'⟩, hr, rfl⟩ := Option.map_eq_some_iff.mp h
        rcases headStep_act hr with ⟨rfl, rfl⟩ | ⟨o, k, r, hrest, ha, -⟩
        · exact Or.inl ⟨rfl, rfl⟩
        · have hnext : s.thr t = some ⟨task.call, .call (.op o) k⟩ := by
            rw [ht, ← hrest]
          exact Or.inr (Or.inl ⟨t, o, a, r, rfl, Cfg.next_eq_some.mpr ⟨_, k, hnext⟩, ha⟩)

/-- What every operation and the environment keep of the state, a run keeps. -/
theorem Cfg.Reach.keeps {P : τ → δ → Prop}
    (hact : ∀ {t o a T d r T' d'}, I.act t o a T d = some (r, T', d') → P T d → P T' d')
    (henv : ∀ {e T d d'}, I.env e T d = some d' → P T d → P T d') {s s' : Cfg τ δ Op R Call Ret}
    (h : Cfg.Reach I prog s s') (hs : P s.sh s.fr) : P s'.sh s'.fr := by
  induction h with
  | refl => exact hs
  | step l _ hl ih =>
      rcases Cfg.step_act hl with ⟨hsh, hfr⟩ | ⟨t, o, a, r, -, -, ha⟩ | ⟨hsh, e, -, he⟩
      · rw [hsh, hfr]
        exact ih
      · exact hact ha ih
      · rw [hsh]
        exact henv he ih

/-- What the operations that straight programs come to and the environment keep of the state, a
run keeps. -/
theorem Cfg.Reach.keeps_straight {A : Op → Prop} {P : τ → δ → Prop}
    (hprog : ∀ c, (prog c).Straight A)
    (hact : ∀ {t o a T d r T' d'}, A o → I.act t o a T d = some (r, T', d') → P T d → P T' d')
    (henv : ∀ {e T d d'}, I.env e T d = some d' → P T d → P T d') {T : τ} {d : δ} (hs : P T d)
    {s : Cfg τ δ Op R Call Ret} (h : Cfg.Reach I prog (Cfg.init T d) s) :
    P s.sh s.fr ∧ ∀ t task, s.thr t = some task → task.rest.Straight A := by
  induction h with
  | refl => exact ⟨hs, fun t task ht => by cases ht⟩
  | step l _ hl ih =>
      obtain ⟨hP, hthr⟩ := ih
      rename_i s₁ s₂ _
      have hupd : ∀ t (x : Option (Task Op R Call Ret)),
          (∀ task, x = some task → task.rest.Straight A) →
          ∀ u task, Function.update s₁.thr t x u = some task → task.rest.Straight A := by
        intro t x hx u task hu
        by_cases e : u = t
        · subst e
          rw [Function.update_self] at hu
          exact hx task hu
        · rw [Function.update_of_ne e] at hu
          exact hthr u task hu
      cases l with
      | start t c =>
          simp only [Cfg.step] at hl
          split at hl <;> cases hl
          exact ⟨hP, hupd t _ fun task e => by cases e; exact hprog c⟩
      | finish t =>
          simp only [Cfg.step] at hl
          split at hl <;> cases hl
          exact ⟨hP, hupd t none fun task e => by cases e⟩
      | env e =>
          obtain ⟨d, hd, rfl⟩ := Option.map_eq_some_iff.mp hl
          exact ⟨henv hd hP, hthr⟩
      | step t a =>
          simp only [Cfg.step] at hl
          split at hl
          · cases hl
          · rename_i task ht
            obtain ⟨⟨p', l', T', d'⟩, hr, rfl⟩ := Option.map_eq_some_iff.mp hl
            obtain ⟨hp', hstep⟩ := headStep_straight (hthr t task ht) hr
            refine ⟨?_, hupd t _ fun task' e => by cases e; exact hp'⟩
            rcases hstep with ⟨rfl, rfl⟩ | ⟨o, r, ho, ha⟩
            · exact hP
            · exact hact ho ha hP

variable (I prog)

/-! ### One program alone -/

/-- An item of a lone run: an answer to the head call, or a step of the environment. -/
inductive Item (Ans Ev : Type) where
  | ans (a : Ans)
  | env (e : Ev)

/-- A program alone: what is left of it, the lock, the two parts of the state. -/
structure Solo (τ δ Op : Type) (R : Op → Type) (α : Type) where
  rest : LProg Op R α
  lock : Lock
  sh : τ
  fr : δ

def Solo.step {α : Type} (t : Nat) : Item Ans Ev → Solo τ δ Op R α → Option (Solo τ δ Op R α)
  | .ans a, s =>
      (headStep I t a s.rest s.lock s.sh s.fr).map fun r => ⟨r.1, r.2.1, r.2.2.1, r.2.2.2⟩
  | .env e, s => (I.env e s.sh s.fr).map fun d => { s with fr := d }

def Solo.run {α : Type} (t : Nat) (is : List (Item Ans Ev)) (s : Solo τ δ Op R α) :
    Option (Solo τ δ Op R α) :=
  is.foldlM (fun s i => s.step I t i) s

/-- The value and the state a lone run ends with, when it ends with the lock free. -/
def Solo.result {α : Type} : Solo τ δ Op R α → Option (α × τ × δ)
  | ⟨.ret x, .reading rs, T, d⟩ => if rs = ∅ then some (x, T, d) else none
  | _                           => none

/-- Thread `t` runs `p` from start to end with only the environment in between. -/
def exec {α : Type} (t : Nat) (p : LProg Op R α) (is : List (Item Ans Ev)) (T : τ) (d : δ) :
    Option (α × τ × δ) :=
  (Solo.run I t is ⟨p, .free, T, d⟩).bind Solo.result

/-- Alone, the program can return, and it returns nothing but `x`. -/
def Returns {α : Type} (t : Nat) (p : LProg Op R α) (T : τ) (d : δ) (x : α) : Prop :=
  (∃ is T' d', exec I t p is T d = some (x, T', d')) ∧
    ∀ is r T' d', exec I t p is T d = some (r, T', d') → r = x

/-- The environment alone takes `d` to `d'`. -/
inductive EnvSteps (T : τ) : δ → δ → Prop where
  | refl (d : δ) : EnvSteps T d d
  | step {d d₁ d₂ : δ} (e : Ev) : I.env e T d = some d₁ → EnvSteps T d₁ d₂ → EnvSteps T d d₂

variable {I}

theorem EnvSteps.trans {T : τ} {d d₁ d₂ : δ} (h : EnvSteps I T d d₁) (h' : EnvSteps I T d₁ d₂) :
    EnvSteps I T d d₂ := by
  induction h with
  | refl => exact h'
  | step e he _ ih => exact .step e he (ih h')

theorem EnvSteps.keeps {P : δ → Prop} {T : τ}
    (henv : ∀ {e d d'}, I.env e T d = some d' → P d → P d') {d d' : δ} (h : EnvSteps I T d d')
    (hd : P d) : P d' := by
  induction h with
  | refl => exact hd
  | step e he _ ih => exact ih (henv he hd)

@[simp] theorem exec_nil {α : Type} (t : Nat) (x : α) (T : τ) (d : δ) :
    exec I t (.ret x) [] T d = some (x, T, d) := by
  simp [exec, Solo.run, Solo.result, Lock.free]

/-- A program that has returned leaves the state to the environment. -/
theorem exec_ret {α : Type} {t : Nat} {x r : α} {is : List (Item Ans Ev)} {T T' : τ} {d d' : δ}
    (h : exec I t (.ret x) is T d = some (r, T', d')) : r = x ∧ T' = T ∧ EnvSteps I T d d' := by
  induction is generalizing d with
  | nil => cases h; exact ⟨rfl, rfl, .refl _⟩
  | cons i is ih =>
      cases i with
      | ans a => cases h
      | env e =>
          simp only [exec, Solo.run, List.foldlM_cons, Solo.step] at h
          cases he : I.env e T d with
          | none => rw [he] at h; cases h
          | some d₁ =>
              rw [he] at h
              obtain ⟨hr, hT, hsteps⟩ := ih h
              exact ⟨hr, hT, .step e he hsteps⟩

/-- An operation that is answered, and the rest of the program run on from there. -/
theorem exec_cons {α : Type} {t : Nat} {o : Op} {k : R o → LProg Op R α} {a : Ans} {x : R o}
    {is : List (Item Ans Ev)} {T T₁ : τ} {d d₁ : δ} (h : I.act t o a T d = some (x, T₁, d₁)) :
    exec I t (LProg.op o >>= k) (.ans a :: is) T d = exec I t (k x) is T₁ d₁ := by
  have hcall : (LProg.op o >>= k : LProg Op R α) = .call (.op o) k := rfl
  simp only [hcall, exec, Solo.run, List.foldlM_cons, Solo.step, headStep, h, Option.map_some]
  rfl

/-- **The next operation of a program alone**: after some steps of the environment it is answered,
and the rest of the program runs on. -/
theorem exec_op {α : Type} {t : Nat} {o : Op} {k : R o → LProg Op R α} {r : α}
    {is : List (Item Ans Ev)} {T T' : τ} {d d' : δ}
    (h : exec I t (.call (.op o) k) is T d = some (r, T', d')) :
    ∃ d₁ a x T₁ d₂ rest, EnvSteps I T d d₁ ∧ I.act t o a T d₁ = some (x, T₁, d₂) ∧
      exec I t (k x) rest T₁ d₂ = some (r, T', d') ∧ .ans a ∈ is ∧ ∀ i ∈ rest, i ∈ is := by
  induction is generalizing d with
  | nil => cases h
  | cons i is ih =>
      cases i with
      | ans a =>
          simp only [exec, Solo.run, List.foldlM_cons, Solo.step, headStep, Option.map_map] at h
          cases ha : I.act t o a T d with
          | none => rw [ha] at h; cases h
          | some y =>
              obtain ⟨x, T₁, d₂⟩ := y
              rw [ha] at h
              exact ⟨d, a, x, T₁, d₂, is, .refl d, ha, h, List.mem_cons_self,
                fun i hi => List.mem_cons_of_mem _ hi⟩
      | env e =>
          simp only [exec, Solo.run, List.foldlM_cons, Solo.step] at h
          cases he : I.env e T d with
          | none => rw [he] at h; cases h
          | some d₁ =>
              rw [he] at h
              obtain ⟨d₂, a, x, T₁, d₃, rest, hsteps, ha, hrest, hmem, hsub⟩ := ih h
              exact ⟨d₂, a, x, T₁, d₃, rest, .step e he hsteps, ha, hrest,
                List.mem_cons_of_mem _ hmem, fun i hi => List.mem_cons_of_mem _ (hsub i hi)⟩

/-- A lone run has ended with its value, and the lock free. -/
theorem Solo.result_eq_some {α : Type} {s : Solo τ δ Op R α} {x : α} {T : τ} {d : δ} :
    s.result = some (x, T, d) ↔ s = ⟨.ret x, .free, T, d⟩ := by
  constructor
  · intro h
    obtain ⟨rest, lock, T₁, d₁⟩ := s
    cases rest with
    | ret y =>
        cases lock with
        | writing u => cases h
        | reading rs =>
            simp only [Solo.result] at h
            split at h <;> cases h
            rename_i e
            rw [e]
            rfl
    | call c k => cases h
    | loop body k => cases h
  · rintro rfl
    simp [Solo.result, Lock.free]

theorem exec_eq_some {α : Type} {t : Nat} {p : LProg Op R α} {is : List (Item Ans Ev)} {T T' : τ}
    {d d' : δ} {r : α} : exec I t p is T d = some (r, T', d') ↔
      Solo.run I t is ⟨p, .free, T, d⟩ = some ⟨.ret r, .free, T', d'⟩ := by
  simp only [exec, Option.bind_eq_some_iff, Solo.result_eq_some, exists_eq_right]

theorem Solo.run_append {α : Type} (t : Nat) (is is' : List (Item Ans Ev)) (s : Solo τ δ Op R α) :
    Solo.run I t (is ++ is') s = (Solo.run I t is s).bind (Solo.run I t is') := by
  rw [Solo.run, List.foldlM_append]
  rfl

/-- What follows a program waits for it. -/
theorem headStep_bind {α γ : Type} {t : Nat} {a : Ans} {p p' : LProg Op R α}
    {f : α → LProg Op R γ} {l l' : Lock} {T T' : τ} {d d' : δ}
    (h : headStep I t a p l T d = some (p', l', T', d')) :
    headStep I t a (p >>= f) l T d = some (p' >>= f, l', T', d') := by
  cases p with
  | ret x => cases h
  | loop body k =>
      cases h
      show some (_, _) = _
      refine congrArg some (Prod.ext ?_ rfl)
      show Prog.bind body _ = Prog.bind (Prog.bind body _) f
      refine Eq.trans ?_ (Prog.bind_assoc body _ f).symm
      refine congrArg (Prog.bind body) (funext fun x => ?_)
      cases x <;> rfl
  | call c k =>
      cases c with
      | unlock => cases h; rfl
      | rdlock =>
          obtain ⟨y, hy, e⟩ := Option.map_eq_some_iff.mp h
          cases e
          exact Option.map_eq_some_iff.mpr ⟨_, hy, rfl⟩
      | wrlock =>
          obtain ⟨y, hy, e⟩ := Option.map_eq_some_iff.mp h
          cases e
          exact Option.map_eq_some_iff.mpr ⟨_, hy, rfl⟩
      | op o =>
          obtain ⟨y, hy, e⟩ := Option.map_eq_some_iff.mp h
          cases e
          exact Option.map_eq_some_iff.mpr ⟨_, hy, rfl⟩

/-- A step of a sequence is one of its first part, until that is done. -/
theorem headStep_of_bind {α γ : Type} {t : Nat} {a : Ans} {p : LProg Op R α}
    {f : α → LProg Op R γ} {q : LProg Op R γ} {l l' : Lock} {T T' : τ} {d d' : δ}
    (h : headStep I t a (p >>= f) l T d = some (q, l', T', d')) :
    (∃ x, p = .ret x) ∨ ∃ p', headStep I t a p l T d = some (p', l', T', d') ∧ q = p' >>= f := by
  cases hp : headStep I t a p l T d with
  | some y =>
      obtain ⟨p', l₁, T₁, d₁⟩ := y
      have hbind := headStep_bind (f := f) hp
      rw [h] at hbind
      cases hbind
      exact Or.inr ⟨p', rfl, rfl⟩
  | none =>
      cases p with
      | ret x => exact Or.inl ⟨x, rfl⟩
      | loop body k => cases hp
      | call c k =>
          exfalso
          cases c with
          | unlock => cases hp
          | rdlock =>
              change (l.rdlock t).map _ = _ at h
              rw [Option.map_eq_none_iff.mp hp] at h
              cases h
          | wrlock =>
              change (l.wrlock t).map _ = _ at h
              rw [Option.map_eq_none_iff.mp hp] at h
              cases h
          | op o =>
              change (I.act t o a T d).map _ = _ at h
              rw [Option.map_eq_none_iff.mp hp] at h
              cases h

theorem Solo.run_bind {α γ : Type} {t : Nat} {is : List (Item Ans Ev)} {s s' : Solo τ δ Op R α}
    (f : α → LProg Op R γ) (h : Solo.run I t is s = some s') :
    Solo.run I t is ⟨s.rest >>= f, s.lock, s.sh, s.fr⟩ =
      some ⟨s'.rest >>= f, s'.lock, s'.sh, s'.fr⟩ := by
  induction is generalizing s with
  | nil => cases h; rfl
  | cons i is ih =>
      obtain ⟨s₁, h₁, h₂⟩ := Option.bind_eq_some_iff.mp h
      refine Option.bind_eq_some_iff.mpr ⟨_, ?_, ih h₂⟩
      cases i with
      | env e =>
          obtain ⟨d, hd, rfl⟩ := Option.map_eq_some_iff.mp h₁
          exact Option.map_eq_some_iff.mpr ⟨d, hd, rfl⟩
      | ans a =>
          obtain ⟨⟨p', l', T', d'⟩, hr, rfl⟩ := Option.map_eq_some_iff.mp h₁
          exact Option.map_eq_some_iff.mpr ⟨_, headStep_bind hr, rfl⟩

/-- **One program alone, then another.** -/
theorem exec_bind {α γ : Type} {t : Nat} {p : LProg Op R α} {f : α → LProg Op R γ}
    {is is' : List (Item Ans Ev)} {T T₁ T' : τ} {d d₁ d' : δ} {a : α} {r : γ}
    (h : exec I t p is T d = some (a, T₁, d₁)) (h' : exec I t (f a) is' T₁ d₁ = some (r, T', d')) :
    exec I t (p >>= f) (is ++ is') T d = some (r, T', d') := by
  rw [exec_eq_some] at h h' ⊢
  rw [Solo.run_append, Solo.run_bind f h]
  exact h'

/-- What the operations a straight program comes to and the environment keep of the state, the
program run alone keeps. -/
theorem exec_keeps_straight {A : Op → Prop} {P : τ → δ → Prop}
    (hact : ∀ {t o a T d r T' d'}, A o → I.act t o a T d = some (r, T', d') → P T d → P T' d')
    (henv : ∀ {e T d d'}, I.env e T d = some d' → P T d → P T d') {α : Type} {t : Nat}
    {p : LProg Op R α} (hp : p.Straight A) {r : α} {is : List (Item Ans Ev)} {T T' : τ} {d d' : δ}
    (h : exec I t p is T d = some (r, T', d')) (hP : P T d) : P T' d' := by
  have hrun : ∀ (is : List (Item Ans Ev)) (s₁ : Solo τ δ Op R α), s₁.rest.Straight A →
      P s₁.sh s₁.fr → Solo.run I t is s₁ = some ⟨.ret r, .free, T', d'⟩ → P T' d' := by
    intro is
    induction is with
    | nil =>
        intro s₁ _ hP₁ h₁
        cases h₁
        exact hP₁
    | cons i is ih =>
        intro s₁ hs₁ hP₁ h₁
        obtain ⟨s₂, h₂, h₃⟩ := Option.bind_eq_some_iff.mp h₁
        cases i with
        | env e =>
            obtain ⟨d₂, hd₂, rfl⟩ := Option.map_eq_some_iff.mp h₂
            exact ih ⟨s₁.rest, s₁.lock, s₁.sh, d₂⟩ hs₁ (henv hd₂ hP₁) h₃
        | ans a =>
            obtain ⟨⟨p', l', T₂, d₂⟩, hr, rfl⟩ := Option.map_eq_some_iff.mp h₂
            obtain ⟨hp', hstep⟩ := headStep_straight hs₁ hr
            refine ih _ hp' ?_ h₃
            rcases hstep with ⟨rfl, rfl⟩ | ⟨o, y, ho, ha⟩
            · exact hP₁
            · exact hact ho ha hP₁
  exact hrun is _ hp hP (exec_eq_some.mp h)

end machine

end Conc
