import TrigEmitKafka.Support.LockLogic

/-!
# Support — what a thread may rely on while it holds the lock

While a thread holds the lock, no other thread changes what the lock guards: not while it reads,
and not while it writes.  So a thread that holds the lock can tell the guarded state from what it
was when it took the lock, and from its own operations since.

`Duty` says what an operation under the lock needs of the guarded state, and which operations are
not taken at all in the runs that are considered.  `Meets` is the condition that a program owes no
more than it can tell, where the lock gives it a guarded state of `J`.

* `needs_of_runBy`: in a run that takes none of those operations, a thread that holds the lock and
  is about to take an operation has what the operation needs.
-/

namespace Conc

variable {τ δ β Op : Type} {R : Op → Type} {Ans Ev : Type}

/-- What an operation under the lock needs of the guarded state, and which are not taken. -/
structure Duty (τ Op : Type) where
  needs : Op → τ → Prop
  stops : Op → Prop

namespace Duty

variable (D : Duty τ Op) (I : Iface τ δ Op R Ans Ev) (J : τ → Prop)

/-- The condition of a call, where the guarded state is `T` if the lock is held. -/
def pre : (c : LockCall Op) → Option τ → (c.Res R → Option τ → Prop) → Prop
  | .rdlock, _,      Φ => ∀ T, J T → Φ () (some T)
  | .wrlock, _,      Φ => ∀ T, J T → Φ () (some T)
  | .unlock, _,      Φ => Φ () none
  | .op o,   some T, Φ => D.stops o ∨ D.needs o T ∧
      ∀ t a d r T' d', I.act t o a T d = some (r, T', d') → Φ r (some T')
  | .op _,   none,   Φ => ∀ r, Φ r none

/-- The program owes no more than it can tell. -/
abbrev Meets {α : Type} (p : LProg Op R α) (m : Option τ) (Q : α → Option τ → Prop) : Prop :=
  p.wp (D.pre I J) m Q

variable {D I J}

theorem pre_mono : Prog.Mono (D.pre I J) := by
  intro c m Φ Ψ hΦ h
  cases c with
  | rdlock => exact fun T hT => hΦ _ _ (h T hT)
  | wrlock => exact fun T hT => hΦ _ _ (h T hT)
  | unlock => exact hΦ _ _ h
  | op o =>
      cases m with
      | none => exact fun r => hΦ _ _ (h r)
      | some T =>
          exact h.imp id fun h => ⟨h.1, fun t a d r T' d' ha => hΦ _ _ (h.2 t a d r T' d' ha)⟩

/-- **An operation under the lock.** -/
theorem Meets.op {o : Op} {T : τ} {Q : R o → Option τ → Prop} (hn : D.needs o T)
    (hQ : ∀ t a d r T' d', I.act t o a T d = some (r, T', d') → Q r (some T')) :
    D.Meets I J (LProg.op o) (some T) Q :=
  Prog.wp_emit (Or.inr ⟨hn, hQ⟩)

/-- An operation that is not taken. -/
theorem Meets.stop {o : Op} {T : τ} {Q : R o → Option τ → Prop} (hs : D.stops o) :
    D.Meets I J (LProg.op o) (some T) Q :=
  Prog.wp_emit (Or.inl hs)

theorem Meets.pure {α : Type} {a : α} {m : Option τ} {Q : α → Option τ → Prop} (h : Q a m) :
    D.Meets I J (Pure.pure a : LProg Op R α) m Q :=
  Prog.wp_pure h

/-- **Consequence.** -/
theorem Meets.mono {α : Type} {p : LProg Op R α} {m : Option τ} {P Q : α → Option τ → Prop}
    (h : D.Meets I J p m P) (hPQ : ∀ a m', P a m' → Q a m') : D.Meets I J p m Q :=
  Prog.wp_mono pre_mono p hPQ h

/-- **Sequencing.** -/
theorem Meets.seq {α γ : Type} {p : LProg Op R α} {f : α → LProg Op R γ} {m : Option τ}
    {P : α → Option τ → Prop} {Q : γ → Option τ → Prop} (h : D.Meets I J p m P)
    (hf : ∀ a m', P a m' → D.Meets I J (f a) m' Q) : D.Meets I J (p >>= f) m Q :=
  Prog.wp_bind (h.mono hf)

/-- **A critical section of a reader.** -/
theorem Meets.reading {α γ : Type} {body : LProg Op R α} {f : α → LProg Op R γ} {m : Option τ}
    {Q : γ → Option τ → Prop}
    (h : ∀ T, J T → D.Meets I J body (some T) fun a _ => D.Meets I J (f a) none Q) :
    D.Meets I J (do LProg.rdlock; let a ← body; LProg.unlock; f a) m Q :=
  Prog.wp_bind fun T hT => (h T hT).seq fun _ _ hf => Prog.wp_bind hf

/-- **A critical section of a writer.** -/
theorem Meets.writing {α γ : Type} {body : LProg Op R α} {f : α → LProg Op R γ} {m : Option τ}
    {Q : γ → Option τ → Prop}
    (h : ∀ T, J T → D.Meets I J body (some T) fun a _ => D.Meets I J (f a) none Q) :
    D.Meets I J (do LProg.wrlock; let a ← body; LProg.unlock; f a) m Q :=
  Prog.wp_bind fun T hT => (h T hT).seq fun _ _ hf => Prog.wp_bind hf

/-- A program whose operations need nothing. -/
theorem Meets.of_straight {α : Type} {A : Op → Prop} (hA : ∀ o T, A o → D.needs o T)
    {p : LProg Op R α} (hp : p.Straight A) (m : Option τ) :
    D.Meets I J p m fun _ _ => True := by
  induction p generalizing m with
  | ret x => trivial
  | loop body k => exact hp.elim
  | call c k ih =>
      obtain ⟨hc, hk⟩ := hp
      cases c with
      | rdlock => exact fun T _ => ih () (hk ()) _
      | wrlock => exact fun T _ => ih () (hk ()) _
      | unlock => exact ih () (hk ()) _
      | op o =>
          cases m with
          | none => exact fun r => ih r (hk r) _
          | some T => exact Or.inr ⟨hA o T hc, fun t a d r T' d' _ => ih r (hk r) _⟩

/-- A program under the lock whose operations keep `P` of the guarded state, and need no more. -/
theorem Meets.of_inner {α : Type} {A : LockCall Op → Prop} {P : τ → Prop}
    (hlock : ∀ c, A c → ∃ o, c = .op o) (hA : ∀ o T, A (.op o) → P T → D.needs o T)
    (hkeep : ∀ {o t a T d r T' d'}, A (.op o) → I.act t o a T d = some (r, T', d') → P T → P T')
    {p : LProg Op R α} (hp : Prog.Straight A p) {T : τ} (hT : P T) :
    D.Meets I J p (some T) fun _ m => ∃ T', m = some T' ∧ P T' := by
  induction p generalizing T with
  | ret x => exact ⟨T, rfl, hT⟩
  | loop body k => exact hp.elim
  | call c k ih =>
      obtain ⟨hc, hk⟩ := hp
      obtain ⟨o, rfl⟩ := hlock c hc
      exact Or.inr ⟨hA o T hc hT, fun t a d r T' d' ha => ih r (hk r) (hkeep hc ha hT)⟩

/-! ### Among other threads -/

section pool

variable {L : Logic I β} {Call : Type} {Ret : Call → Type}
  {prog : (c : Call) → LProg Op R (Ret c)} {P : Logic.Sharing L prog}

/-- Where a thread is that meets the condition. -/
def Within (D : Duty τ Op) (I : Iface τ δ Op R Ans Ev) (J : τ → Prop) {α : Type} (t : Nat)
    (p : LProg Op R α) (l : Lock) (T : τ) : Prop :=
  (l.held t ≠ .none ∧ D.Meets I J p (some T) fun _ _ => True) ∨
    (l.held t = .none ∧ D.Meets I J p none fun _ _ => True)

/-- A step of a thread that meets the condition. -/
theorem Within.headStep {α : Type} {t : Nat} {a : Ans} {p p' : LProg Op R α} {l l' : Lock}
    {T T' : τ} {d d' : δ} (h : D.Within I J t p l T) (hJ : l.NoWriter → J T)
    (hstop : ∀ o k, p = .call (.op o) k → ¬ D.stops o)
    (hs : Conc.headStep I t a p l T d = some (p', l', T', d')) : D.Within I J t p' l' T' := by
  cases p with
  | ret x => cases hs
  | loop body k =>
      simp only [Conc.headStep, Option.some.injEq, Prod.mk.injEq] at hs
      obtain ⟨rfl, rfl, rfl, rfl⟩ := hs
      exact h.imp (And.imp_right (Prog.wp_unroll pre_mono))
        (And.imp_right (Prog.wp_unroll pre_mono))
  | call c k =>
      cases c with
      | rdlock =>
          obtain ⟨l₁, hl, e⟩ := Option.map_eq_some_iff.mp hs
          cases e
          obtain ⟨hn, -, hheld, -⟩ := Lock.rdlock_spec hl
          have hne : l'.held t ≠ .none := by rw [hheld]; exact Held.noConfusion
          rcases h with ⟨-, hm⟩ | ⟨-, hm⟩
          · exact Or.inl ⟨hne, hm T (hJ hn)⟩
          · exact Or.inl ⟨hne, hm T (hJ hn)⟩
      | wrlock =>
          obtain ⟨l₁, hl, e⟩ := Option.map_eq_some_iff.mp hs
          cases e
          obtain ⟨hn, hheld, -, -⟩ := Lock.wrlock_spec hl
          have hne : l'.held t ≠ .none := by rw [hheld]; exact Held.noConfusion
          rcases h with ⟨-, hm⟩ | ⟨-, hm⟩
          · exact Or.inl ⟨hne, hm T (hJ hn)⟩
          · exact Or.inl ⟨hne, hm T (hJ hn)⟩
      | unlock =>
          simp only [Conc.headStep, Option.some.injEq, Prod.mk.injEq] at hs
          obtain ⟨rfl, rfl, rfl, rfl⟩ := hs
          have hfree : (l.unlock t).held t = .none := by
            cases l with
            | reading rs => simp [Lock.unlock, Lock.held]
            | writing u =>
                by_cases e : u = t <;> simp [Lock.unlock, Lock.held, Lock.free, e]
          rcases h with ⟨-, hm⟩ | ⟨-, hm⟩
          · exact Or.inr ⟨hfree, hm⟩
          · exact Or.inr ⟨hfree, hm⟩
      | op o =>
          obtain ⟨r, ha, e⟩ := Option.map_eq_some_iff.mp hs
          cases e
          rcases h with ⟨hl, hm⟩ | ⟨hl, hm⟩
          · obtain ⟨-, hk⟩ := hm.resolve_left (hstop o k rfl)
            exact Or.inl ⟨hl, hk t a d r.1 r.2.1 r.2.2 ha⟩
          · exact Or.inr ⟨hl, hm r.1⟩

/-- Every thread at a call of `C` meets the condition. -/
def AllWithin (D : Duty τ Op) (P : Logic.Sharing L prog) (C : Call → Prop)
    (s : Cfg τ δ Op R Call Ret) : Prop :=
  ∀ t task, s.thr t = some task → C task.call → D.Within I P.J t task.rest s.lock s.sh

/-- Every step keeps it. -/
theorem AllWithin.step {C : Call → Prop} {s s' : Cfg τ δ Op R Call Ret} {lab : Label Ans Ev Call}
    (hprog : ∀ c, C c → D.Meets I P.J (prog c) none fun _ _ => True) (hg : Logic.Good P s)
    (hstop : ∀ t a o, lab = .step t a → s.next t = some o → ¬ D.stops o)
    (h : D.AllWithin P C s) (hs : s.step I prog lab = some s') : D.AllWithin P C s' := by
  intro t task ht hc
  by_cases hlab : lab.thread = some t
  swap
  · -- another thread's step
    obtain ⟨hthr, hheld, -⟩ := hg.step_other hs hlab
    rw [Within, hheld]
    rcases h t task (hthr ▸ ht) hc with ⟨hl, hm⟩ | hnone
    · exact Or.inl ⟨hl, by rw [hg.step_guard hs hlab hl]; exact hm⟩
    · exact Or.inr hnone
  cases lab with
  | env e => cases hlab
  | start u c =>
      cases hlab
      simp only [Cfg.step] at hs
      split at hs
      · rename_i hidle
        cases hs
        obtain rfl : (⟨c, prog c⟩ : Task Op R Call Ret) = task := by simpa using ht
        exact Or.inr ⟨(hg.idle t hidle).1, hprog c hc⟩
      · cases hs
  | finish u =>
      cases hlab
      simp only [Cfg.step] at hs
      split at hs <;> cases hs
      simp at ht
  | step u a =>
      cases hlab
      simp only [Cfg.step] at hs
      split at hs
      · cases hs
      · rename_i task₀ ht₀
        obtain ⟨⟨p', l', T', d'⟩, hr, rfl⟩ := Option.map_eq_some_iff.mp hs
        obtain rfl : (⟨task₀.call, p'⟩ : Task Op R Call Ret) = task := by simpa using ht
        refine (h t task₀ ht₀ hc).headStep hg.tab (fun o k hk => ?_) hr
        exact hstop t a o rfl (Cfg.next_eq_some.mpr ⟨task₀.call, k, by rw [ht₀, ← hk]⟩)

/-- **What a thread needs under the lock, it has**, in a run that takes none of the operations that
are not to be taken. -/
theorem needs_of_runBy {C : Call → Prop} {K : Cfg τ δ Op R Call Ret → Label Ans Ev Call → Prop}
    (hprog : ∀ c, C c → D.Meets I P.J (prog c) none fun _ _ => True)
    (hstop : ∀ s t a o, K s (.step t a) → s.next t = some o → ¬ D.stops o) {T : τ} {d : δ}
    (hg : Logic.Good P (Cfg.init T d : Cfg τ δ Op R Call Ret)) {s : Cfg τ δ Op R Call Ret}
    {ls : List (Label Ans Ev Call)} (hr : Cfg.RunBy I prog K (Cfg.init T d) ls s) {t : Nat}
    {c : Call} {o : Op} {k : R o → LProg Op R (Ret c)} (hc : C c)
    (ht : s.thr t = some ⟨c, .call (.op o) k⟩) (hheld : s.lock.held t ≠ .none) :
    D.stops o ∨ D.needs o s.sh := by
  have hall : D.AllWithin P C s := by
    clear ht hheld
    induction hr with
    | nil => exact fun t task ht => by cases ht
    | snoc l hrun hK hs ih =>
        exact ih.step hprog (Logic.reach_good hg hrun.reach)
          (fun t a o e hnext => hstop _ t a o (e ▸ hK) hnext) hs
  rcases hall t _ ht hc with ⟨-, hm⟩ | ⟨hn, -⟩
  · exact hm.imp id And.left
  · exact absurd hn hheld

end pool

end Duty

end Conc
