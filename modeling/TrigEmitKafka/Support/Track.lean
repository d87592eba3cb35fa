import TrigEmitKafka.Support.LockMachine

/-!
# Support — what a thread keeps track of

What a thread may do next can depend on what it did before: a call that ends something needs one
that began it.  `Track` says how the operations of a thread move a mode of its own, and what an
operation needs of the mode.  `Follows` is the condition that a program keeps to it.

* `Truthful.kept`: in every reachable configuration every thread keeps to it, in a mode that tells
  the truth of the state.
* `Kept.needs`: so a thread that is about to take an operation has what the operation needs.
-/

namespace Conc

variable {τ δ Op : Type} {R : Op → Type} {Ans Ev : Type} {M : Type}

/-- What an operation needs of the mode, and to which mode it moves. -/
structure Track (Op : Type) (R : Op → Type) (M : Type) where
  needs : Op → M → Prop
  moves : (o : Op) → R o → M → M

namespace Track

variable (D : Track Op R M)

/-- The condition of a call. -/
def pre : (c : LockCall Op) → M → (c.Res R → M → Prop) → Prop
  | .op o,   m, Φ => D.needs o m ∧ ∀ r, Φ r (D.moves o r m)
  | .rdlock, m, Φ => Φ () m
  | .wrlock, m, Φ => Φ () m
  | .unlock, m, Φ => Φ () m

/-- The program keeps to it, from the mode `m` to one of `Q`. -/
abbrev Follows {α : Type} (p : LProg Op R α) (m : M) (Q : α → M → Prop) : Prop := p.wp D.pre m Q

variable {D}

theorem pre_mono : Prog.Mono D.pre := by
  intro c m Φ Ψ hΦ h
  cases c with
  | op o => exact ⟨h.1, fun r => hΦ _ _ (h.2 r)⟩
  | rdlock => exact hΦ _ _ h
  | wrlock => exact hΦ _ _ h
  | unlock => exact hΦ _ _ h

theorem Follows.pure {α : Type} {a : α} {m : M} {Q : α → M → Prop} (h : Q a m) :
    D.Follows (Pure.pure a : LProg Op R α) m Q :=
  Prog.wp_pure h

/-- **Consequence.** -/
theorem Follows.mono {α : Type} {p : LProg Op R α} {m : M} {P Q : α → M → Prop}
    (h : D.Follows p m P) (hPQ : ∀ a m', P a m' → Q a m') : D.Follows p m Q :=
  Prog.wp_mono pre_mono p hPQ h

/-- An operation, then the rest. -/
theorem Follows.op {α : Type} {o : Op} {k : R o → LProg Op R α} {m : M} {Q : α → M → Prop}
    (ho : D.needs o m) (hk : ∀ r, D.Follows (k r) (D.moves o r m) Q) :
    D.Follows (LProg.op o >>= k) m Q :=
  Prog.wp_bind ⟨ho, hk⟩

/-- **Sequencing.** -/
theorem Follows.bind {α γ : Type} {p : LProg Op R α} {f : α → LProg Op R γ} {m : M}
    {P : α → M → Prop} {Q : γ → M → Prop} (hp : D.Follows p m P)
    (hf : ∀ a m', P a m' → D.Follows (f a) m' Q) : D.Follows (p >>= f) m Q :=
  Prog.wp_bind (hp.mono hf)

/-- A program whose operations need nothing. -/
theorem Follows.of_straight {α : Type} {A : Op → Prop} (hA : ∀ o m, A o → D.needs o m)
    {p : LProg Op R α} (hp : p.Straight A) (m : M) : D.Follows p m fun _ _ => True := by
  induction p generalizing m with
  | ret x => trivial
  | loop body k => exact hp.elim
  | call c k ih =>
      obtain ⟨hc, hk⟩ := hp
      cases c with
      | rdlock => exact ih () (hk ()) m
      | wrlock => exact ih () (hk ()) m
      | unlock => exact ih () (hk ()) m
      | op o => exact ⟨hA o m hc, fun r => ih r (hk r) _⟩

/-! ### Among other threads -/

section pool

variable {I : Iface τ δ Op R Ans Ev} {Call : Type} {Ret : Call → Type}
  {prog : (c : Call) → LProg Op R (Ret c)} {m₀ : M} {Q : M → Prop} {own : Nat → M → δ → Prop}

/-- The mode of a thread tells the truth of the state, whatever the others do. -/
structure Truthful (D : Track Op R M) (I : Iface τ δ Op R Ans Ev) (own : Nat → M → δ → Prop) :
    Prop where
  act : ∀ {t o a T d r T' d' m}, own t m d → D.needs o m →
    I.act t o a T d = some (r, T', d') → own t (D.moves o r m) d'
  other : ∀ {t u o a T d r T' d' m n}, u ≠ t → own u m d → own t n d → D.needs o n →
    I.act t o a T d = some (r, T', d') → own u m d'
  env : ∀ {u e T d d' m}, own u m d → I.env e T d = some d' → own u m d'

/-- A step of a thread that keeps to it. -/
theorem Truthful.headStep (h : D.Truthful I own) {α : Type} {P : α → M → Prop} {t : Nat} {a : Ans}
    {p p' : LProg Op R α} {l l' : Lock} {T T' : τ} {d d' : δ} {m : M} (hp : D.Follows p m P)
    (ho : own t m d) (hs : Conc.headStep I t a p l T d = some (p', l', T', d')) :
    ∃ m', D.Follows p' m' P ∧ own t m' d' := by
  cases p with
  | ret x => cases hs
  | loop body k =>
      cases hs
      exact ⟨m, Prog.wp_unroll pre_mono hp, ho⟩
  | call c k =>
      cases c with
      | rdlock =>
          obtain ⟨_, -, e⟩ := Option.map_eq_some_iff.mp hs
          cases e
          exact ⟨m, hp, ho⟩
      | wrlock =>
          obtain ⟨_, -, e⟩ := Option.map_eq_some_iff.mp hs
          cases e
          exact ⟨m, hp, ho⟩
      | unlock =>
          cases hs
          exact ⟨m, hp, ho⟩
      | op o =>
          obtain ⟨r, ha, e⟩ := Option.map_eq_some_iff.mp hs
          cases e
          exact ⟨_, hp.2 r.1, h.act ho hp.1 ha⟩

/-- The threads keep to it: an idle one is in the mode `m₀`. -/
structure Kept (D : Track Op R M) (m₀ : M) (Q : M → Prop) (own : Nat → M → δ → Prop)
    (s : Cfg τ δ Op R Call Ret) : Prop where
  idle : ∀ t, s.thr t = none → own t m₀ s.fr
  busy : ∀ t task, s.thr t = some task → ∃ m, D.Follows task.rest m (fun _ => Q) ∧ own t m s.fr

/-- **A step** keeps it. -/
theorem Truthful.step (h : D.Truthful I own) (hprog : ∀ c, D.Follows (prog c) m₀ fun _ => Q)
    (hQ : ∀ {t m d}, Q m → own t m d → own t m₀ d) {s s' : Cfg τ δ Op R Call Ret}
    {l : Label Ans Ev Call} (hs : Kept D m₀ Q own s) (hl : s.step I prog l = some s') :
    Kept D m₀ Q own s' := by
  -- what another thread knows stays true
  have hother : ∀ u, l.thread ≠ some u → ∀ m, own u m s.fr → own u m s'.fr := by
    intro u hlab m ho
    rcases Cfg.step_act hl with ⟨-, hfr⟩ | ⟨t, o, a, r, rfl, hnext, ha⟩ | ⟨-, e, rfl, he⟩
    · exact hfr ▸ ho
    · obtain ⟨c, k, hthr⟩ := Cfg.next_eq_some.mp hnext
      obtain ⟨n, hn, ho'⟩ := hs.busy t _ hthr
      exact h.other (fun e => hlab (congrArg some e.symm)) ho ho' hn.1 ha
    · exact h.env ho he
  refine ⟨fun u hu => ?_, fun u task hu => ?_⟩
  · by_cases hlab : l.thread = some u
    swap
    · exact hother u hlab m₀ (hs.idle u ((Cfg.step_of_ne hl hlab).symm.trans hu))
    cases l with
    | env e => cases hlab
    | start t c =>
        cases hlab
        simp only [Cfg.step] at hl
        split at hl <;> cases hl
        simp at hu
    | finish t =>
        cases hlab
        simp only [Cfg.step] at hl
        split at hl
        · rename_i c x hx
          cases hl
          obtain ⟨m, hm, ho⟩ := hs.busy u _ hx
          exact hQ hm ho
        · cases hl
    | step t a =>
        cases hlab
        simp only [Cfg.step] at hl
        split at hl
        · cases hl
        · obtain ⟨⟨p', l', T', d'⟩, hr, rfl⟩ := Option.map_eq_some_iff.mp hl
          simp at hu
  · by_cases hlab : l.thread = some u
    swap
    · obtain ⟨m, hm, ho⟩ := hs.busy u task ((Cfg.step_of_ne hl hlab).symm.trans hu)
      exact ⟨m, hm, hother u hlab m ho⟩
    cases l with
    | env e => cases hlab
    | start t c =>
        cases hlab
        simp only [Cfg.step] at hl
        split at hl
        · rename_i hidle
          cases hl
          obtain rfl : (⟨c, prog c⟩ : Task Op R Call Ret) = task := by simpa using hu
          exact ⟨m₀, hprog c, hs.idle u hidle⟩
        · cases hl
    | finish t =>
        cases hlab
        simp only [Cfg.step] at hl
        split at hl <;> cases hl
        simp at hu
    | step t a =>
        cases hlab
        simp only [Cfg.step] at hl
        split at hl
        · cases hl
        · rename_i task₀ ht₀
          obtain ⟨m, hm, ho⟩ := hs.busy u task₀ ht₀
          obtain ⟨⟨p', l', T', d'⟩, hr, rfl⟩ := Option.map_eq_some_iff.mp hl
          obtain rfl : (⟨task₀.call, p'⟩ : Task Op R Call Ret) = task := by simpa using hu
          exact h.headStep hm ho hr

/-- **Every thread keeps to it**, and its mode tells the truth. -/
theorem Truthful.kept (h : D.Truthful I own) (hprog : ∀ c, D.Follows (prog c) m₀ fun _ => Q)
    (hQ : ∀ {t m d}, Q m → own t m d → own t m₀ d) {T : τ} {d : δ} (hd : ∀ t, own t m₀ d)
    {s : Cfg τ δ Op R Call Ret} (hr : Cfg.Reach I prog (Cfg.init T d) s) : Kept D m₀ Q own s := by
  induction hr with
  | refl => exact ⟨fun t _ => hd t, fun t task ht => by cases ht⟩
  | step l _ hl ih => exact h.step hprog hQ ih hl

/-- **What an operation needs of its thread, the thread has.** -/
theorem Kept.needs {s : Cfg τ δ Op R Call Ret} (h : Kept D m₀ Q own s) {t : Nat} {o : Op}
    (ht : s.next t = some o) : ∃ m, D.needs o m ∧ own t m s.fr := by
  obtain ⟨c, k, hthr⟩ := Cfg.next_eq_some.mp ht
  obtain ⟨m, hm, ho⟩ := h.busy t _ hthr
  exact ⟨m, hm.1, ho⟩

end pool

end Track

end Conc
