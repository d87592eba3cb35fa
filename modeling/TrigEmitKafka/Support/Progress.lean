import TrigEmitKafka.Support.LockLogic

/-!
# Support — threads that let go of the lock, and come to rest

Which programs can always end, and what that gives of threads under one readers-writer lock.

`LProg.Ends φ p Q` says that `p` ends at a value of `Q` whatever results of `φ` its operations
return, each loop in the round it is in; `LProg.Able φ p` that from wherever `p` comes to, whatever
its operations returned so far, it can so end.  A program without a loop is able to.

`Manners` says which steps may be taken in a state.  `Unblocked` says that no operation waits for
another thread: at every configuration the environment alone can bring about that the operation a
thread is at may be taken, and is answered with a result of `φ`.

* `Unblocked.lets_go`: a thread that holds the lock can let go of it while no other thread moves.
* `Unblocked.comes_to_rest`: from every reachable configuration all the calls can return, which leaves
  the lock free.
-/

namespace Conc

/-- A program is itself, then its value. -/
theorem Prog.bind_ret {C : Type} {R : C → Type} {α : Type} (p : Prog C R α) : p.bind .ret = p := by
  induction p with
  | ret a => rfl
  | call c k ih => exact congrArg (Prog.call c) (funext ih)
  | loop body k _ ih => exact congrArg (Prog.loop body) (funext ih)

section ends

variable {Op : Type} {R : Op → Type} {α γ : Type}

namespace LProg

/-- **The program ends**, at a value of `Q`, whatever results of `φ` its operations return; a loop
ends in the round it is in. -/
def Ends (φ : (o : Op) → R o → Prop) : {α : Type} → LProg Op R α → (α → Prop) → Prop
  | _, .ret a,         Q => Q a
  | _, .call (.op o) k, Q => ∀ r, φ o r → Ends φ (k r) Q
  | _, .call .rdlock k, Q => Ends φ (k ()) Q
  | _, .call .wrlock k, Q => Ends φ (k ()) Q
  | _, .call .unlock k, Q => Ends φ (k ()) Q
  | _, .loop body k,   Q => Ends φ body fun x => ∃ b, x = some b ∧ Ends φ (k b) Q

/-- **The program is able to end**, from wherever it comes to. -/
def Able (φ : (o : Op) → R o → Prop) : {α : Type} → LProg Op R α → Prop
  | _, .ret _       => True
  | _, .call _ k    => ∀ r, Able φ (k r)
  | _, .loop body k => Ends φ body (fun x => x.isSome) ∧ Able φ body ∧ ∀ b, Able φ (k b)

variable {φ : (o : Op) → R o → Prop}

theorem Ends.mono {p : LProg Op R α} {P Q : α → Prop} (hPQ : ∀ a, P a → Q a) (h : p.Ends φ P) :
    p.Ends φ Q := by
  induction p with
  | ret a => exact hPQ a h
  | call c k ih =>
      cases c with
      | op o =>
          intro r hr
          exact ih r hPQ (h r hr)
      | rdlock => exact ih () hPQ h
      | wrlock => exact ih () hPQ h
      | unlock => exact ih () hPQ h
  | loop body k ihb ih =>
      refine ihb (fun x hx => ?_) h
      obtain ⟨b, e, hb⟩ := hx
      exact ⟨b, e, ih b hPQ hb⟩

theorem Ends.bind {p : LProg Op R α} {f : α → LProg Op R γ} {Q : γ → Prop}
    (h : p.Ends φ fun a => (f a).Ends φ Q) : (p >>= f).Ends φ Q := by
  induction p with
  | ret a => exact h
  | call c k ih =>
      cases c with
      | op o =>
          intro r hr
          exact ih r (h r hr)
      | rdlock => exact ih () h
      | wrlock => exact ih () h
      | unlock => exact ih () h
  | loop body k _ ih =>
      refine Ends.mono (p := body) (fun x hx => ?_) h
      obtain ⟨b, e, hb⟩ := hx
      exact ⟨b, e, ih b hb⟩

/-- An able program ends. -/
theorem Able.ends {p : LProg Op R α} (h : p.Able φ) : p.Ends φ fun _ => True := by
  induction p with
  | ret a => trivial
  | call c k ih =>
      cases c with
      | op o =>
          intro r _
          exact ih r (h r)
      | rdlock => exact ih () (h ())
      | wrlock => exact ih () (h ())
      | unlock => exact ih () (h ())
  | loop body k _ ih =>
      obtain ⟨hbody, -, hk⟩ := h
      refine Ends.mono (p := body) (fun x hx => ?_) hbody
      obtain ⟨b, e⟩ := Option.isSome_iff_exists.mp hx
      exact ⟨b, e, ih b (hk b)⟩

theorem Able.bind {p : LProg Op R α} {f : α → LProg Op R γ} (hp : p.Able φ)
    (hf : ∀ a, (f a).Able φ) : (p >>= f).Able φ := by
  induction p with
  | ret a => exact hf a
  | call c k ih =>
      intro r
      exact ih r (hp r) hf
  | loop body k _ ih =>
      obtain ⟨hends, hbody, hk⟩ := hp
      exact ⟨hends, hbody, fun b => ih b (hk b) hf⟩

/-- A program without a loop is able to end. -/
theorem Able.of_straight {P : Op → Prop} {p : LProg Op R α} (h : p.Straight P) : p.Able φ := by
  induction p with
  | ret a => trivial
  | call c k ih =>
      intro r
      exact ih r (h.2 r)
  | loop body k => exact h.elim

/-- So is one after a round of its loop. -/
theorem Able.unroll {body : LProg Op R (Option γ)} {k : γ → LProg Op R α}
    (h : Able φ (.loop body k : LProg Op R α)) : Able φ (Prog.unroll body k : LProg Op R α) := by
  obtain ⟨-, hbody, hk⟩ := id h
  refine Able.bind hbody fun x => ?_
  cases x with
  | none => exact h
  | some b => exact hk b

end LProg

end ends

/-! ### Programs that end on one answer -/

section answered

variable {τ δ β Op : Type} {R : Op → Type} {Ans Ev : Type} {α γ : Type}

namespace LProg

/-- **Answered with `a`, the program ends**, at a value and a guarded state of `Q`, and comes to
operations of `P` alone; a loop ends in the round it is in. -/
def EndsOn (I : Iface τ δ Op R Ans Ev) (a : Ans) (P : Op → Prop) :
    {α : Type} → LProg Op R α → τ → (α → τ → Prop) → Prop
  | _, .ret x,          T, Q => Q x T
  | _, .call (.op o) k, T, Q => P o ∧ ∀ t d r T' d', I.act t o a T d = some (r, T', d') →
      EndsOn I a P (k r) T' Q
  | _, .call .rdlock k, T, Q => EndsOn I a P (k ()) T Q
  | _, .call .wrlock k, T, Q => EndsOn I a P (k ()) T Q
  | _, .call .unlock k, T, Q => EndsOn I a P (k ()) T Q
  | _, .loop body k,    T, Q => EndsOn I a P body T fun x T' =>
      ∃ b, x = some b ∧ EndsOn I a P (k b) T' Q

variable {I : Iface τ δ Op R Ans Ev} {a : Ans} {P : Op → Prop} {T : τ}

theorem EndsOn.mono {p : LProg Op R α} {Q Q' : α → τ → Prop} (hQ : ∀ x T', Q x T' → Q' x T')
    (h : p.EndsOn I a P T Q) : p.EndsOn I a P T Q' := by
  induction p generalizing T with
  | ret x => exact hQ x T h
  | call c k ih =>
      cases c with
      | op o => exact ⟨h.1, fun t d r T' d' ha => ih r hQ (h.2 t d r T' d' ha)⟩
      | rdlock => exact ih () hQ h
      | wrlock => exact ih () hQ h
      | unlock => exact ih () hQ h
  | loop body k ihb ih =>
      refine ihb (fun x T' hx => ?_) h
      obtain ⟨b, e, hb⟩ := hx
      exact ⟨b, e, ih b hQ hb⟩

theorem EndsOn.bind {p : LProg Op R α} {f : α → LProg Op R γ} {Q : γ → τ → Prop}
    (h : p.EndsOn I a P T fun x T' => (f x).EndsOn I a P T' Q) :
    (p >>= f).EndsOn I a P T Q := by
  induction p generalizing T with
  | ret x => exact h
  | call c k ih =>
      cases c with
      | op o => exact ⟨h.1, fun t d r T' d' ha => ih r (h.2 t d r T' d' ha)⟩
      | rdlock => exact ih () h
      | wrlock => exact ih () h
      | unlock => exact ih () h
  | loop body k _ ih =>
      refine EndsOn.mono (p := body) (fun x T' hx => ?_) h
      obtain ⟨b, e, hb⟩ := hx
      exact ⟨b, e, ih b hb⟩

/-- An operation, then what follows it. -/
theorem EndsOn.op {o : Op} {f : R o → LProg Op R γ} {Q : γ → τ → Prop} (ho : P o)
    (h : ∀ t d r T' d', I.act t o a T d = some (r, T', d') → (f r).EndsOn I a P T' Q) :
    (LProg.op o >>= f).EndsOn I a P T Q :=
  ⟨ho, h⟩

/-- A program, then what follows it. -/
theorem EndsOn.seq {p : LProg Op R α} {f : α → LProg Op R γ} {Q : α → τ → Prop}
    {Q' : γ → τ → Prop} (h : p.EndsOn I a P T Q)
    (hf : ∀ x T', Q x T' → (f x).EndsOn I a P T' Q') : (p >>= f).EndsOn I a P T Q' :=
  (h.mono hf).bind

/-- A program without a loop, whose operations keep `K` of the guarded state. -/
theorem EndsOn.of_straight {A : Op → Prop} {K : τ → Prop} {p : LProg Op R α} (hp : p.Straight A)
    (hA : ∀ o, A o → P o)
    (hK : ∀ {t o T d r T' d'}, A o → K T → I.act t o a T d = some (r, T', d') → K T') (hT : K T) :
    p.EndsOn I a P T fun _ T' => K T' := by
  induction p generalizing T with
  | ret x => exact hT
  | loop body k => exact hp.elim
  | call c k ih =>
      cases c with
      | op o => exact ⟨hA o hp.1, fun t d r T' d' ha => ih r (hp.2 r) (hK hp.1 hT ha)⟩
      | rdlock => exact ih () (hp.2 ()) hT
      | wrlock => exact ih () (hp.2 ()) hT
      | unlock => exact ih () (hp.2 ()) hT

end LProg

namespace Logic

variable {I : Iface τ δ Op R Ans Ev} {L : Logic I β} {allows : Ans → Prop} {a : Ans} {P : Op → Prop}

/-- The lone run goes on to `f x`, with `x` and the guarded state then of `Q'`. -/
def Onwards (L : Logic I β) (allows : Ans → Prop) (t : Nat) (Q : γ → Mode τ β → Prop)
    (f : α → LProg Op R γ) (Q' : α → τ → Prop) (s : Solo τ δ Op R γ) : Prop :=
  ∃ is x l' T' d', Allowed allows is ∧ Solo.run I t is s = some ⟨f x, l', T', d'⟩ ∧ Q' x T' ∧
    SoloOk L allows t Q ⟨f x, l', T', d'⟩ ∧ ∀ u, u ≠ t → l'.held u = .none

variable {t : Nat} {Q : γ → Mode τ β → Prop} {f : α → LProg Op R γ} {Q' : α → τ → Prop}

/-- It does so where it does after a step. -/
theorem Onwards.step (hok : allows a) {q q' : LProg Op R γ} {l l₁ : Lock} {T T₁ : τ} {d d₁ : δ}
    (h : SoloOk L allows t Q ⟨q, l, T, d⟩) (hs : headStep I t a q l T d = some (q', l₁, T₁, d₁))
    (hrest : SoloOk L allows t Q ⟨q', l₁, T₁, d₁⟩ → Onwards L allows t Q f Q' ⟨q', l₁, T₁, d₁⟩) :
    Onwards L allows t Q f Q' ⟨q, l, T, d⟩ := by
  have hstep : Solo.step I t (.ans a) ⟨q, l, T, d⟩ = some ⟨q', l₁, T₁, d₁⟩ := by
    simp only [Solo.step, hs, Option.map_some]
  obtain ⟨is, x, l', T', d', his, hrun, hx⟩ :=
    hrest (h.step (fun b e => by cases e; exact hok) hstep)
  refine ⟨.ans a :: is, x, l', T', d', ?_, ?_, hx⟩
  · intro b hb
    rcases List.mem_cons.mp hb with e | hb
    · cases e
      exact hok
    · exact his b hb
  · rw [Solo.run, List.foldlM_cons, hstep]
    exact hrun

/-- What one part of a program leads to, the next goes on from. -/
theorem Onwards.trans {α' : Type} {g : α' → LProg Op R γ} {Z : α' → τ → Prop}
    {s : Solo τ δ Op R γ} (h : Onwards L allows t Q g Z s)
    (hg : ∀ x l T d, Z x T → (∀ u, u ≠ t → l.held u = .none) →
      SoloOk L allows t Q ⟨g x, l, T, d⟩ → Onwards L allows t Q f Q' ⟨g x, l, T, d⟩) :
    Onwards L allows t Q f Q' s := by
  obtain ⟨is, x, l, T, d, his, hrun, hZ, hok, hl⟩ := h
  obtain ⟨is', x', l', T', d', his', hrun', hend⟩ := hg x l T d hZ hl hok
  refine ⟨is ++ is', x', l', T', d', ?_, ?_, hend⟩
  · intro b hb
    exact (List.mem_append.mp hb).elim (his b) (his' b)
  · rw [Solo.run_append, hrun, Option.bind_some, hrun']

/-- **A lone program goes on to the end of a part of it** that ends on an answer that is allowed,
where that answers each operation the part may come to. -/
theorem SoloOk.endsOn (hok : allows a)
    (hready : ∀ {h o T d}, P o → I.valid t h o T d → (I.act t o a T d).isSome) (p : LProg Op R α)
    {l : Lock} {T : τ} {d : δ} (hl : ∀ u, u ≠ t → l.held u = .none)
    (h : SoloOk L allows t Q ⟨p.bind f, l, T, d⟩) (hp : p.EndsOn I a P T Q') :
    Onwards L allows t Q f Q' ⟨p.bind f, l, T, d⟩ := by
  induction p generalizing l T d with
  | ret x => exact ⟨[], x, l, T, d, fun _ hb => (by cases hb), rfl, hp, h, hl⟩
  | loop body k ihb ih =>
      refine Onwards.step hok h rfl fun h₁ => ?_
      refine (ihb hl h₁ hp).trans fun x l₁ T₁ d₁ hx hl₁ h₂ => ?_
      obtain ⟨b, rfl, hb⟩ := hx
      exact ih b hl₁ h₂ hb
  | call c k ih =>
      obtain ⟨hi, m, hm, hq⟩ := id h
      obtain ⟨hh, hT, ho, hv⟩ := fits_alone_iff.mp hm
      have hpre := hq m rfl
      cases c with
      | rdlock =>
          obtain rfl := Lock.eq_free (hh.symm.trans hpre.1) hl
          have hrd : Lock.free.rdlock t = some (.reading (insert t ∅)) := rfl
          refine Onwards.step hok h rfl fun h₁ => ih () (fun u hu => ?_) h₁ hp
          exact ((Lock.rdlock_spec hrd).2.2.2 u hu).trans (Lock.held_free u)
      | wrlock =>
          obtain rfl := Lock.eq_free (hh.symm.trans hpre.1) hl
          have hwr : Lock.free.wrlock t = some (.writing t) := rfl
          exact Onwards.step hok h rfl fun h₁ =>
            ih () (fun u hu => (Lock.wrlock_spec hwr).2.2.2 u hu) h₁ hp
      | unlock =>
          refine Onwards.step hok h rfl fun h₁ => ih () (fun u hu => ?_) h₁ hp
          rw [(Lock.unlock_spec (hh ▸ hpre.1)).2.2 u hu]
          exact hl u hu
      | op o =>
          obtain ⟨y, hy⟩ := Option.isSome_iff_exists.mp (hready hp.1 (Safe.valid hq hm hi))
          have hs : headStep I t a (.call (.op o) fun r => (k r).bind f) l T d =
              some ((k y.1).bind f, l, y.2.1, y.2.2) := by
            simp only [headStep, hy, Option.map_some]
          exact Onwards.step hok h hs fun h₁ => ih y.1 hl h₁ (hp.2 t d y.1 y.2.1 y.2.2 hy)

/-- **A safe program that ends on an answer that is allowed runs to its end.** -/
theorem exec_endsOn (hok : allows a)
    (hready : ∀ {h o T d}, P o → I.valid t h o T d → (I.act t o a T d).isSome) {p : LProg Op R γ}
    {T : τ} {d : δ} {b : β} {Q' : γ → τ → Prop} (hi : L.Inv T d) (ho : L.own t b d)
    (hb : L.sees b d) (hQ : ∀ x m, Q x m → m.held = .none)
    (hsafe : L.Safe (alone allows) p ⟨.none, T, b⟩ Q) (hp : p.EndsOn I a P T Q') :
    ∃ is x T' d', Allowed allows is ∧ exec I t p is T d = some (x, T', d') ∧ Q' x T' := by
  have hstart : SoloOk L allows t Q ⟨p.bind .ret, .free, T, d⟩ := by
    rw [Prog.bind_ret]
    exact ⟨hi, ⟨.none, T, b⟩, fits_alone_iff.mpr ⟨(Lock.held_free t).symm, rfl, ho, hb⟩, hsafe⟩
  obtain ⟨is, x, l, T', d', his, hrun, hx, ⟨hi', m, hm, hq⟩, hl⟩ :=
    hstart.endsOn hok hready p (fun u _ => Lock.held_free u) hp
  obtain rfl := Lock.eq_free ((fits_alone_iff.mp hm).1.symm.trans (hQ x m hq)) hl
  rw [Prog.bind_ret] at hrun
  exact ⟨is, x, T', d', his, exec_eq_some.mpr hrun, hx⟩

/-- **A safe program without a loop runs to its end**, where each of its operations can be
answered with `a`. -/
theorem exec_ends (hok : allows a)
    (hready : ∀ {h o T d}, P o → I.valid t h o T d → (I.act t o a T d).isSome) {p : LProg Op R γ}
    {T : τ} {d : δ} {b : β} (hi : L.Inv T d) (ho : L.own t b d) (hb : L.sees b d)
    (hQ : ∀ x m, Q x m → m.held = .none) (hsafe : L.Safe (alone allows) p ⟨.none, T, b⟩ Q)
    (hp : p.Straight P) : ∃ is y, Allowed allows is ∧ exec I t p is T d = some y := by
  have hends : p.EndsOn I a P T fun _ _ => True :=
    .of_straight (K := fun _ => True) hp (fun _ h => h) (fun _ _ _ => trivial) trivial
  obtain ⟨is, x, T', d', his, he, -⟩ := exec_endsOn hok hready hi ho hb hQ hsafe hends
  exact ⟨is, _, his, he⟩

end Logic

end answered

/-! ### One thread at a time -/

/-- A lock that a thread does not hold is free, or another thread holds it. -/
theorem Lock.free_or_other {l : Lock} {t : Nat} (h : l.held t = .none) :
    l = .free ∨ ∃ u, u ≠ t ∧ l.held u ≠ .none := by
  by_cases hoth : ∃ u, u ≠ t ∧ l.held u ≠ .none
  · exact Or.inr hoth
  · refine Or.inl (Lock.eq_free h fun u hu => ?_)
    by_contra hne
    exact hoth ⟨u, hu, hne⟩

section moves

variable {τ δ Op : Type} {R : Op → Type} {Ans Ev : Type} {Call : Type} {Ret : Call → Type}

/-- The step is one of thread `t` inside its call, or of the environment. -/
def Label.Inside (t : Nat) : Label Ans Ev Call → Prop
  | .step u _ => u = t
  | .env _    => True
  | _         => False

theorem Label.Inside.thread {t u : Nat} {l : Label Ans Ev Call} (h : l.Inside t) (hu : u ≠ t) :
    l.thread ≠ some u := by
  cases l with
  | step v a =>
      intro e
      cases e
      exact hu h
  | env e => exact fun e => by cases e
  | start v c => exact h.elim
  | finish v => exact h.elim

variable (I : Iface τ δ Op R Ans Ev) (prog : (c : Call) → LProg Op R (Ret c))

/-- Which steps the environment and the threads may take. -/
structure Manners (δ Ev : Type) where
  env : Ev → δ → Prop
  step : Nat → δ → Prop

/-- The step may be taken. -/
def Manners.Allows (M : Manners δ Ev) (d : δ) : Label Ans Ev Call → Prop
  | .env e    => M.env e d
  | .step t _ => M.step t d
  | _         => True

/-- The environment alone takes `d` to `d'`, as it may. -/
inductive EnvBy (I : Iface τ δ Op R Ans Ev) (M : Manners δ Ev) (T : τ) : δ → δ → Prop where
  | refl (d : δ) : EnvBy I M T d d
  | step {d d₁ d₂ : δ} (e : Ev) : M.env e d → I.env e T d = some d₁ → EnvBy I M T d₁ d₂ →
      EnvBy I M T d d₂

theorem EnvBy.trans {I : Iface τ δ Op R Ans Ev} {M : Manners δ Ev} {T : τ} {d d₁ d₂ : δ}
    (h : EnvBy I M T d d₁) (h' : EnvBy I M T d₁ d₂) : EnvBy I M T d d₂ := by
  induction h with
  | refl => exact h'
  | step e hm he _ ih => exact .step e hm he (ih h')

variable (M : Manners δ Ev)

/-- Thread `t` alone, and the environment, take `s` to `s'`. -/
inductive Cfg.Moves (t : Nat) (s : Cfg τ δ Op R Call Ret) : Cfg τ δ Op R Call Ret → Prop where
  | refl : Cfg.Moves t s s
  | step {s₁ s₂ : Cfg τ δ Op R Call Ret} (l : Label Ans Ev Call) : Cfg.Moves t s s₁ → l.Inside t →
      M.Allows s₁.fr l → s₁.step I prog l = some s₂ → Cfg.Moves t s s₂

/-- Some run of steps that may be taken comes from `s` to `s'`. -/
def Cfg.Comes (s s' : Cfg τ δ Op R Call Ret) : Prop :=
  ∃ ls, Cfg.RunBy I prog (fun s l => M.Allows s.fr l) s ls s'

variable {I prog M} {s s₁ s₂ : Cfg τ δ Op R Call Ret} {t : Nat}

theorem Cfg.Comes.refl : Cfg.Comes I prog M s s := ⟨[], .nil⟩

theorem Cfg.Comes.step (h : Cfg.Comes I prog M s s₁) (l : Label Ans Ev Call)
    (hl : M.Allows s₁.fr l) (hs : s₁.step I prog l = some s₂) : Cfg.Comes I prog M s s₂ := by
  obtain ⟨ls, hrun⟩ := h
  exact ⟨ls ++ [l], hrun.snoc l hl hs⟩

theorem Cfg.Comes.trans (h : Cfg.Comes I prog M s s₁) (h' : Cfg.Comes I prog M s₁ s₂) :
    Cfg.Comes I prog M s s₂ := by
  obtain ⟨ls, hrun⟩ := h'
  induction hrun with
  | nil => exact h
  | snoc l _ hl hs ih => exact ih.step l hl hs

theorem Cfg.Comes.reach (h : Cfg.Comes I prog M s s₁) : Cfg.Reach I prog s s₁ := by
  obtain ⟨ls, hrun⟩ := h
  exact hrun.reach

theorem Cfg.Moves.trans (h : Cfg.Moves I prog M t s s₁) (h' : Cfg.Moves I prog M t s₁ s₂) :
    Cfg.Moves I prog M t s s₂ := by
  induction h' with
  | refl => exact h
  | step l _ hin hl hs ih => exact ih.step l hin hl hs

/-- A run of steps inside the call, and of the environment. -/
theorem Cfg.Moves.runBy (h : Cfg.Moves I prog M t s s₁) :
    ∃ ls, Cfg.RunBy I prog (fun s l => M.Allows s.fr l ∧ l.Inside t) s ls s₁ := by
  induction h with
  | refl => exact ⟨[], .nil⟩
  | step l _ hin hl hs ih =>
      obtain ⟨ls, hrun⟩ := ih
      exact ⟨ls ++ [l], hrun.snoc l ⟨hl, hin⟩ hs⟩

theorem Cfg.Moves.comes (h : Cfg.Moves I prog M t s s₁) : Cfg.Comes I prog M s s₁ := by
  obtain ⟨ls, hrun⟩ := h.runBy
  exact ⟨ls, hrun.mono fun _ _ => And.left⟩

theorem Cfg.Moves.reach (h : Cfg.Moves I prog M t s s₁) : Cfg.Reach I prog s s₁ := h.comes.reach

/-- What the environment does alone. -/
theorem Cfg.Moves.env {T : τ} {d d' : δ} (h : EnvBy I M T d d') {l : Lock}
    {thr : Nat → Option (Task Op R Call Ret)} {hist : List (Nat × (c : Call) × Ret c)} :
    Cfg.Moves I prog M t ⟨T, d, l, thr, hist⟩ ⟨T, d', l, thr, hist⟩ := by
  induction h with
  | refl d => exact .refl
  | @step d d₁ d₂ e hm he _ ih =>
      have hs : Cfg.step I prog (.env e) ⟨T, d, l, thr, hist⟩ = some ⟨T, d₁, l, thr, hist⟩ :=
        Option.map_eq_some_iff.mpr ⟨d₁, he, rfl⟩
      have hone : Cfg.Moves I prog M t ⟨T, d, l, thr, hist⟩ ⟨T, d₁, l, thr, hist⟩ :=
        Cfg.Moves.refl.step (.env e) trivial hm hs
      exact hone.trans ih

/-- What a thread does among threads that do not move, it does alone. -/
theorem Cfg.Moves.solo (h : Cfg.Moves I prog M t s s₁) {c : Call} {p : LProg Op R (Ret c)}
    (ht : s.thr t = some ⟨c, p⟩) :
    ∃ is q, s₁.thr t = some ⟨c, q⟩ ∧
      Solo.run I t is ⟨p, s.lock, s.sh, s.fr⟩ = some ⟨q, s₁.lock, s₁.sh, s₁.fr⟩ := by
  induction h with
  | refl => exact ⟨[], p, ht, rfl⟩
  | @step s₁ s₂ l _ hin _ hs ih =>
      obtain ⟨is, q, hq, hrun⟩ := ih
      cases l with
      | start u c => exact hin.elim
      | finish u => exact hin.elim
      | env e =>
          obtain ⟨d, hd, rfl⟩ := Option.map_eq_some_iff.mp hs
          refine ⟨is ++ [.env e], q, hq, ?_⟩
          rw [Solo.run_append, hrun, Option.bind_some]
          exact Option.bind_eq_some_iff.mpr ⟨_, Option.map_eq_some_iff.mpr ⟨d, hd, rfl⟩, rfl⟩
      | step u a =>
          obtain rfl : u = t := hin
          simp only [Cfg.step, hq] at hs
          obtain ⟨⟨q', l', T', d'⟩, hr, rfl⟩ := Option.map_eq_some_iff.mp hs
          refine ⟨is ++ [.ans a], q', Function.update_self .., ?_⟩
          rw [Solo.run_append, hrun, Option.bind_some]
          exact Option.bind_eq_some_iff.mpr ⟨_, Option.map_eq_some_iff.mpr ⟨_, hr, rfl⟩, rfl⟩

end moves

/-! ### Programs that wait for no other thread -/

namespace Logic

variable {τ δ β Op : Type} {R : Op → Type} {Ans Ev : Type} {I : Iface τ δ Op R Ans Ev}
  {L : Logic I β} {Call : Type} {Ret : Call → Type} {prog : (c : Call) → LProg Op R (Ret c)}
  {P : Sharing L prog} {M : Manners δ Ev} {s s' : Cfg τ δ Op R Call Ret} {t : Nat}

/-- **Where the lock may be called.**  A thread that is about to take the lock does not hold it,
one that is about to let go of it does, and one whose call has come to its value does not. -/
structure Disciplined (s : Cfg τ δ Op R Call Ret) : Prop where
  rdlock : ∀ t c k, s.thr t = some ⟨c, .call .rdlock k⟩ → s.lock.held t = .none
  wrlock : ∀ t c k, s.thr t = some ⟨c, .call .wrlock k⟩ → s.lock.held t = .none
  unlock : ∀ t c k, s.thr t = some ⟨c, .call .unlock k⟩ → s.lock.held t ≠ .none
  ret : ∀ t c x, s.thr t = some ⟨c, .ret x⟩ → s.lock.held t = .none
  idle : ∀ t, s.thr t = none → s.lock.held t = .none

theorem Good.disciplined (h : Good P s) : Disciplined s where
  rdlock t c k ht := by
    obtain ⟨m, ⟨m₁, hd, hh, -⟩, hp⟩ := h.busy t _ ht
    exact hh.symm.trans (hp m₁ hd).1
  wrlock t c k ht := by
    obtain ⟨m, ⟨m₁, hd, hh, -⟩, hp⟩ := h.busy t _ ht
    exact hh.symm.trans (hp m₁ hd).1
  unlock t c k ht := by
    obtain ⟨m, ⟨m₁, hd, hh, -⟩, hp⟩ := h.busy t _ ht
    exact fun e => (hp m₁ hd).1 (hh.trans e)
  ret t c x ht := by
    obtain ⟨m, ⟨m₁, hd, hh, -⟩, hp⟩ := h.busy t _ ht
    exact hh.symm.trans (hd.1.trans hp.1)
  idle t ht := (h.idle t ht).1

/-- With no call in progress the lock is free. -/
theorem Disciplined.free (h : Disciplined s) (hidle : ∀ t, s.thr t = none) : s.lock = .free :=
  Lock.eq_free (t := 0) (h.idle 0 (hidle 0)) fun u _ => h.idle u (hidle u)

/-- The other threads stay where they are, and hold the lock as they did. -/
theorem Good.moves (h : Good P s) (hm : Cfg.Moves I prog M t s s') :
    Good P s' ∧ ∀ u, u ≠ t → s'.thr u = s.thr u ∧ s'.lock.held u = s.lock.held u := by
  induction hm with
  | refl => exact ⟨h, fun u _ => ⟨rfl, rfl⟩⟩
  | step l _ hl _ hs ih =>
      obtain ⟨hg, hsame⟩ := ih
      refine ⟨hg.step hs, fun u hu => ?_⟩
      obtain ⟨hthr, hheld, -⟩ := hg.step_other hs (hl.thread hu)
      obtain ⟨hthr', hheld'⟩ := hsame u hu
      exact ⟨hthr.trans hthr', hheld.trans hheld'⟩

/-- **No operation waits for another thread**: the environment alone can bring about that a thread
may take a step, and that an operation is answered, with a result of `φ`. -/
structure Unblocked (P : Sharing L prog) (M : Manners δ Ev) (φ : (o : Op) → R o → Prop) (T : τ)
    (d : δ) : Prop where
  good : Good P (Cfg.init T d : Cfg τ δ Op R Call Ret)
  able : ∀ c, (prog c).Able φ
  settles : ∀ T d t, ∃ d₁, EnvBy I M T d d₁ ∧ M.step t d₁
  ready : ∀ {s : Cfg τ δ Op R Call Ret} {t : Nat} {o : Op},
    Cfg.Reach I prog (Cfg.init T d) s → s.next t = some o →
    ∃ d₁, EnvBy I M s.sh s.fr d₁ ∧ M.step t d₁ ∧
      ∃ a r T' d', I.act t o a s.sh d₁ = some (r, T', d') ∧ φ o r

namespace Unblocked

variable {φ : (o : Op) → R o → Prop} {T : τ} {d : δ}

/-- Every thread is at a program that is able to end. -/
theorem rest_able (h : Unblocked P M φ T d) (hr : Cfg.Reach I prog (Cfg.init T d) s) :
    ∀ t task, s.thr t = some task → task.rest.Able φ := by
  induction hr with
  | refl => exact fun t task ht => by cases ht
  | @step s₁ s₂ l _ hl ih =>
      intro t task ht
      by_cases hlab : l.thread = some t
      swap
      · exact ih t task ((Cfg.step_of_ne hl hlab).symm.trans ht)
      cases l with
      | env e => cases hlab
      | start u c =>
          cases hlab
          simp only [Cfg.step] at hl
          split at hl <;> cases hl
          obtain rfl : (⟨c, prog c⟩ : Task Op R Call Ret) = task := by simpa using ht
          exact h.able c
      | finish u =>
          cases hlab
          simp only [Cfg.step] at hl
          split at hl <;> cases hl
          simp at ht
      | step u a =>
          cases hlab
          simp only [Cfg.step] at hl
          split at hl
          · cases hl
          · rename_i task₀ ht₀
            have h₀ := ih t task₀ ht₀
            obtain ⟨⟨p, l', T', d'⟩, hstep, rfl⟩ := Option.map_eq_some_iff.mp hl
            obtain rfl : (⟨task₀.call, p⟩ : Task Op R Call Ret) = task := by simpa using ht
            obtain ⟨c, rest⟩ := task₀
            cases rest with
            | ret x => cases hstep
            | loop body k =>
                cases hstep
                exact h₀.unroll
            | call c k =>
                cases c with
                | rdlock =>
                    obtain ⟨_, -, e⟩ := Option.map_eq_some_iff.mp hstep
                    cases e
                    exact h₀ ()
                | wrlock =>
                    obtain ⟨_, -, e⟩ := Option.map_eq_some_iff.mp hstep
                    cases e
                    exact h₀ ()
                | unlock =>
                    cases hstep
                    exact h₀ ()
                | op o =>
                    obtain ⟨r, -, e⟩ := Option.map_eq_some_iff.mp hstep
                    cases e
                    exact h₀ r.1

/-- Finitely many threads are at work. -/
theorem busy_finite (hr : Cfg.Reach I prog (Cfg.init T d : Cfg τ δ Op R Call Ret) s) :
    ∃ ts : List Nat, ∀ t, t ∉ ts → s.thr t = none := by
  induction hr with
  | refl => exact ⟨[], fun _ _ => rfl⟩
  | @step s₁ s₂ l _ hl ih =>
      obtain ⟨ts, hts⟩ := ih
      cases hlab : l.thread with
      | none =>
          refine ⟨ts, fun t ht => (Cfg.step_of_ne hl ?_).trans (hts t ht)⟩
          rw [hlab]
          exact fun e => by cases e
      | some u =>
          refine ⟨u :: ts, fun t ht => ?_⟩
          have hne := List.ne_of_not_mem_cons ht
          have hmem := List.not_mem_of_not_mem_cons ht
          refine (Cfg.step_of_ne hl ?_).trans (hts t hmem)
          rw [hlab]
          exact fun e => hne (Option.some.inj e).symm

section alone

variable [Inhabited Ans]

/-- The thread takes a call on the lock, or goes into a round of its loop. -/
theorem moves_head (h : Unblocked P M φ T d) {c : Call} {p q : LProg Op R (Ret c)} {l : Lock}
    (ht : s.thr t = some ⟨c, p⟩)
    (hp : ∀ d, headStep I t default p s.lock s.sh d = some (q, l, s.sh, d)) :
    ∃ s', Cfg.Moves I prog M t s s' ∧ s'.thr t = some ⟨c, q⟩ := by
  obtain ⟨sh, fr, lock, thr, hist⟩ := s
  obtain ⟨d₁, henv, hstep⟩ := h.settles sh fr t
  have hdrift : Cfg.Moves I prog M t ⟨sh, fr, lock, thr, hist⟩ ⟨sh, d₁, lock, thr, hist⟩ := .env henv
  have hm := hdrift.step (.step t default) rfl hstep
    (Cfg.step_head I prog (s := ⟨sh, d₁, lock, thr, hist⟩) ht (hp d₁))
  exact ⟨_, hm, Function.update_self ..⟩

/-- **One thread alone** comes to the end of a part `p` of its program, or it stands outside the
lock and another thread holds it. -/
theorem moves_to (h : Unblocked P M φ T d) {c : Call} {α : Type} (p : LProg Op R α) {Q : α → Prop}
    (f : α → LProg Op R (Ret c)) (hr : Cfg.Reach I prog (Cfg.init T d) s)
    (ht : s.thr t = some ⟨c, p.bind f⟩) (hp : p.Ends φ Q) :
    ∃ s', Cfg.Moves I prog M t s s' ∧
      ((∃ a, Q a ∧ s'.thr t = some ⟨c, f a⟩) ∨
        (s'.lock.held t = .none ∧ ∃ u, u ≠ t ∧ s'.lock.held u ≠ .none)) := by
  induction p generalizing s with
  | ret a => exact ⟨s, .refl, Or.inl ⟨a, hp, ht⟩⟩
  | loop body k ihb ih =>
      obtain ⟨s₁, hm₁, ht₁⟩ := h.moves_head ht fun _ => rfl
      obtain ⟨s₂, hm₂, hend⟩ := ihb _ (hr.trans hm₁.reach) ht₁ hp
      rcases hend with ⟨x, ⟨b, rfl, hb⟩, ht₂⟩ | hout
      · obtain ⟨s₃, hm₃, hend⟩ := ih b f (hr.trans (hm₁.trans hm₂).reach) ht₂ hb
        exact ⟨s₃, (hm₁.trans hm₂).trans hm₃, hend⟩
      · exact ⟨s₂, hm₁.trans hm₂, Or.inr hout⟩
  | call x k ih =>
      have hgood : Good P s := reach_good h.good hr
      -- from the state after the call
      have hgo : ∀ {s₁} r, Cfg.Moves I prog M t s s₁ → s₁.thr t = some ⟨c, (k r).bind f⟩ →
          LProg.Ends φ (k r) Q → ∃ s', Cfg.Moves I prog M t s s' ∧
            ((∃ a, Q a ∧ s'.thr t = some ⟨c, f a⟩) ∨
              (s'.lock.held t = .none ∧ ∃ u, u ≠ t ∧ s'.lock.held u ≠ .none)) := by
        intro s₁ r hm ht₁ hk
        obtain ⟨s₂, hm₂, hend⟩ := ih r f (hr.trans hm.reach) ht₁ hk
        exact ⟨s₂, hm.trans hm₂, hend⟩
      cases x with
      | rdlock =>
          have hnone := hgood.disciplined.rdlock t c _ ht
          rcases Lock.free_or_other hnone with hfree | hoth
          · have hstep : ∀ d, headStep I t default (.call .rdlock fun r => (k r).bind f) s.lock s.sh d =
                some ((k ()).bind f, .reading (insert t ∅), s.sh, d) := by
              rw [hfree]
              exact fun _ => rfl
            obtain ⟨s₁, hm, ht₁⟩ := h.moves_head ht hstep
            exact hgo () hm ht₁ hp
          · exact ⟨s, .refl, Or.inr ⟨hnone, hoth⟩⟩
      | wrlock =>
          have hnone := hgood.disciplined.wrlock t c _ ht
          rcases Lock.free_or_other hnone with hfree | hoth
          · have hstep : ∀ d, headStep I t default (.call .wrlock fun r => (k r).bind f) s.lock s.sh d =
                some ((k ()).bind f, .writing t, s.sh, d) := by
              rw [hfree]
              exact fun _ => rfl
            obtain ⟨s₁, hm, ht₁⟩ := h.moves_head ht hstep
            exact hgo () hm ht₁ hp
          · exact ⟨s, .refl, Or.inr ⟨hnone, hoth⟩⟩
      | unlock =>
          obtain ⟨s₁, hm, ht₁⟩ := h.moves_head ht fun _ => rfl
          exact hgo () hm ht₁ hp
      | op o =>
          -- the environment first brings about that the operation is answered
          obtain ⟨d₁, henv, hmay, a, r, T', d', hact, hφ⟩ :=
            h.ready hr (Cfg.next_eq_some.mpr ⟨c, _, ht⟩)
          obtain ⟨sh, fr, lock, thr, hist⟩ := s
          have hstep : headStep I t a (.call (.op o) fun r => (k r).bind f) lock sh d₁ =
              some ((k r).bind f, lock, T', d') := by
            simp only [headStep, hact, Option.map_some]
          have hdrift : Cfg.Moves I prog M t ⟨sh, fr, lock, thr, hist⟩ ⟨sh, d₁, lock, thr, hist⟩ :=
            .env henv
          have hm := hdrift.step (.step t a) rfl hmay
            (Cfg.step_head I prog (s := ⟨sh, d₁, lock, thr, hist⟩) ht hstep)
          exact hgo r hm (Function.update_self ..) (hp r hφ)

/-- A thread at a call comes to its value, or stands outside the lock that another thread holds. -/
theorem moves_on (h : Unblocked P M φ T d) (hr : Cfg.Reach I prog (Cfg.init T d) s)
    {task : Task Op R Call Ret} (ht : s.thr t = some task) :
    ∃ s', Cfg.Moves I prog M t s s' ∧ ((∃ c x, s'.thr t = some ⟨c, .ret x⟩) ∨
      (s'.lock.held t = .none ∧ ∃ u, u ≠ t ∧ s'.lock.held u ≠ .none)) := by
  have hrest : s.thr t = some ⟨task.call, task.rest.bind .ret⟩ := by
    rw [Prog.bind_ret]
    exact ht
  obtain ⟨s', hm, hend⟩ := h.moves_to task.rest .ret hr hrest (h.rest_able hr t task ht).ends
  rcases hend with ⟨x, -, hx⟩ | hout
  · exact ⟨s', hm, Or.inl ⟨task.call, x, hx⟩⟩
  · exact ⟨s', hm, Or.inr hout⟩

/-- **A thread lets go of the lock** without waiting for another thread. -/
theorem lets_go (h : Unblocked P M φ T d) (hr : Cfg.Reach I prog (Cfg.init T d) s) (t : Nat) :
    ∃ s', Cfg.Moves I prog M t s s' ∧ s'.lock.held t = .none := by
  have hgood : Good P s := reach_good h.good hr
  cases ht : s.thr t with
  | none => exact ⟨s, .refl, hgood.disciplined.idle t ht⟩
  | some task =>
      obtain ⟨s', hm, ⟨c, x, hx⟩ | ⟨hnone, -⟩⟩ := h.moves_on hr ht
      · exact ⟨s', hm, (hgood.moves hm).1.disciplined.ret t c x hx⟩
      · exact ⟨s', hm, hnone⟩

/-- Where no other thread holds the lock, a call returns. -/
theorem returns (h : Unblocked P M φ T d) (hr : Cfg.Reach I prog (Cfg.init T d) s)
    (hfree : ∀ u, s.lock.held u = .none) (t : Nat) :
    ∃ s', Cfg.Comes I prog M s s' ∧ s'.thr t = none ∧ (∀ u, u ≠ t → s'.thr u = s.thr u) ∧
      ∀ u, s'.lock.held u = .none := by
  have hgood : Good P s := reach_good h.good hr
  cases ht : s.thr t with
  | none => exact ⟨s, .refl, ht, fun _ _ => rfl, hfree⟩
  | some task =>
      obtain ⟨s₁, hm, hend⟩ := h.moves_on hr ht
      obtain ⟨hgood₁, hsame⟩ := hgood.moves hm
      rcases hend with ⟨c, x, hx⟩ | ⟨-, u, hu, hheld⟩
      · have hfin : s₁.step I prog (.finish t) = some { s₁ with
            thr := Function.update s₁.thr t none, hist := s₁.hist ++ [(t, ⟨c, x⟩)] } := by
          simp only [Cfg.step, hx]
        refine ⟨_, hm.comes.step (.finish t) trivial hfin, Function.update_self .., fun u hu => ?_, fun u => ?_⟩
        · exact (Function.update_of_ne hu _ _).trans (hsame u hu).1
        · by_cases e : u = t
          · subst e
            exact hgood₁.disciplined.ret u c x hx
          · exact (hsame u e).2.trans (hfree u)
      · exact absurd ((hsame u hu).2.trans (hfree u)) hheld

/-- Where no call is in progress, any call run alone can return. -/
theorem runs_alone (h : Unblocked P M φ T d) (hr : Cfg.Reach I prog (Cfg.init T d) s)
    (hidle : ∀ t, s.thr t = none) (t : Nat) (c : Call) :
    ∃ is y, exec I t (prog c) is s.sh s.fr = some y := by
  have hfree := (reach_good h.good hr).disciplined.free hidle
  obtain ⟨sh, fr, lock, thr, hist⟩ := s
  obtain rfl : lock = .free := hfree
  have hstart : Cfg.step I prog (.start t c) ⟨sh, fr, .free, thr, hist⟩ =
      some ⟨sh, fr, .free, Function.update thr t (some ⟨c, prog c⟩), hist⟩ := by
    simp only [Cfg.step, show thr t = none from hidle t]
  have hr₁ := hr.step _ hstart
  have ht : Function.update thr t (some ⟨c, prog c⟩) t = some ⟨c, prog c⟩ := Function.update_self ..
  obtain ⟨s₂, hm, hend⟩ := h.moves_on hr₁ ht
  obtain ⟨hgood, hsame⟩ := (reach_good h.good hr₁).moves hm
  have hothers : ∀ u, u ≠ t → s₂.lock.held u = .none := fun u hu => by
    rw [(hsame u hu).2]
    simp
  rcases hend with ⟨c', x, hx⟩ | ⟨-, u, hu, hheld⟩
  · obtain ⟨is, q, hq, hrun⟩ := hm.solo ht
    rw [Lock.eq_free (hgood.disciplined.ret t c' x hx) hothers] at hrun
    rw [hq] at hx
    cases hx
    exact ⟨is, _, exec_eq_some.mpr hrun⟩
  · exact absurd (hothers u hu) hheld

/-- Everyone can let go of the lock. -/
theorem all_let_go (h : Unblocked P M φ T d) (hr : Cfg.Reach I prog (Cfg.init T d) s) (ts : List Nat)
    (hts : ∀ t, t ∉ ts → s.lock.held t = .none) :
    ∃ s', Cfg.Comes I prog M s s' ∧ ∀ t, s'.lock.held t = .none := by
  induction ts generalizing s with
  | nil => exact ⟨s, .refl, fun t => hts t List.not_mem_nil⟩
  | cons t ts ih =>
      obtain ⟨s₁, hm, hnone⟩ := h.lets_go hr t
      obtain ⟨s₂, hr₂, hall⟩ := ih (hr.trans hm.reach) fun u hu => by
        by_cases e : u = t
        · subst e
          exact hnone
        · rw [(((reach_good h.good hr).moves hm).2 u e).2]
          exact hts u (List.not_mem_cons_of_ne_of_not_mem e hu)
      exact ⟨s₂, hm.comes.trans hr₂, hall⟩

/-- Everyone's call can return. -/
theorem all_return (h : Unblocked P M φ T d) (hr : Cfg.Reach I prog (Cfg.init T d) s)
    (hfree : ∀ u, s.lock.held u = .none) (ts : List Nat)
    (hts : ∀ t, t ∉ ts → s.thr t = none) :
    ∃ s', Cfg.Comes I prog M s s' ∧ ∀ t, s'.thr t = none := by
  induction ts generalizing s with
  | nil => exact ⟨s, .refl, fun t => hts t List.not_mem_nil⟩
  | cons t ts ih =>
      obtain ⟨s₁, hr₁, hidle, hsame, hfree₁⟩ := h.returns hr hfree t
      obtain ⟨s₂, hr₂, hall⟩ := ih (hr.trans hr₁.reach) hfree₁ fun u hu => by
        by_cases e : u = t
        · subst e
          exact hidle
        · rw [hsame u e]
          exact hts u (List.not_mem_cons_of_ne_of_not_mem e hu)
      exact ⟨s₂, hr₁.trans hr₂, hall⟩

/-- **No dead end**: from every reachable configuration all the calls can return, and the lock is
free then. -/
theorem comes_to_rest (h : Unblocked P M φ T d) (hr : Cfg.Reach I prog (Cfg.init T d) s) :
    ∃ s', Cfg.Comes I prog M s s' ∧ (∀ t, s'.thr t = none) ∧ s'.lock = .free := by
  obtain ⟨ts, hts⟩ := busy_finite hr
  obtain ⟨s₁, hr₁, hfree⟩ := h.all_let_go hr ts fun t ht =>
    (reach_good h.good hr).disciplined.idle t (hts t ht)
  obtain ⟨ts', hts'⟩ := busy_finite (hr.trans hr₁.reach)
  obtain ⟨s₂, hr₂, hidle⟩ := h.all_return (hr.trans hr₁.reach) hfree ts' hts'
  have hgood : Good P s₂ := reach_good h.good ((hr.trans hr₁.reach).trans hr₂.reach)
  exact ⟨s₂, hr₁.trans hr₂, hidle, hgood.disciplined.free hidle⟩

end alone

end Unblocked

end Logic

end Conc
