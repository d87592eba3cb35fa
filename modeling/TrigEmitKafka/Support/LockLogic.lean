import TrigEmitKafka.Support.LockMachine

/-!
# Support — reasoning about a program under a readers-writer lock

A thread's `Mode` is how it holds the lock, the guarded state it sees, and a `view`: what it
knows of the unguarded state.  A `Logic` says which global invariant every operation keeps, and
when a view is true: `own` is about what is private to the thread, and no other thread changes
it; `sees` is about what is shared, and holds on while the thread writes.

`Safe p m Q` is the verification condition of `p` from the mode `m`: no operation of `p` is
undefined behaviour, each keeps the invariant, and `Q` holds of the value and the mode at the
end.  It is taken in a `Setting`, which says what interference may do to a mode between two
calls (`drift`), which answers may come from outside (`allows`), what a thread finds when it
takes the lock (`acq`), and what it owes when it stops writing (`rel`).  There are two:

* `shared J`: any other threads.  A mode keeps only what the lock protects; the lock gives the
  table invariant `J` and takes it back.
* `alone`: only the environment.  A mode keeps everything.

`reach_good` and `exec_safe` are the two soundness theorems.
-/

namespace Conc

variable {τ δ β Op : Type} {R : Op → Type} {Ans Ev : Type}

/-- How a thread holds the lock, the guarded state it sees, what it knows of the rest. -/
structure Mode (τ β : Type) where
  held : Held
  sh : τ
  view : β

/-- A global invariant, and views of the unguarded state that interference keeps. -/
structure Logic (I : Iface τ δ Op R Ans Ev) (β : Type) where
  Inv : τ → δ → Prop
  sees : β → δ → Prop
  own : Nat → β → δ → Prop
  env_inv : ∀ {e T d d'}, Inv T d → I.env e T d = some d' → Inv T d'
  env_sees : ∀ {e T d d' b}, Inv T d → I.env e T d = some d' → sees b d → sees b d'
  env_own : ∀ {e T d d' t b}, I.env e T d = some d' → own t b d → own t b d'
  /-- No thread touches what another owns. -/
  act_own : ∀ {t u o a T d r T' d' b}, u ≠ t → I.act t o a T d = some (r, T', d') →
    own u b d → own u b d'
  /-- A reader's operation leaves the guarded state alone. -/
  rd_frame : ∀ {t o a T d r T' d'}, I.valid t .rd o T d → I.act t o a T d = some (r, T', d') →
    T' = T
  /-- An operation without the lock leaves the guarded state and a writer's view alone. -/
  none_frame : ∀ {t o a T d r T' d'}, I.valid t .none o T d →
    I.act t o a T d = some (r, T', d') → T' = T ∧ ∀ b, sees b d → sees b d'

/-- What interference may do, what the lock gives, and what it takes back. -/
structure Setting (τ β Ans : Type) where
  /-- Views hold in every mode, not only while writing. -/
  track : Bool
  /-- The answers from outside that may come. -/
  allows : Ans → Prop
  drift : Mode τ β → Mode τ β → Prop
  acq : Mode τ β → τ → β → Prop
  rel : τ → Prop
  drift_refl : ∀ m, drift m m
  drift_held : ∀ {m m₁}, drift m m₁ → m₁.held = m.held
  drift_view : ∀ {m m₁}, drift m m₁ → m₁.view = m.view
  /-- Whoever holds the lock sees no interference. -/
  drift_locked : ∀ {m m₁}, drift m m₁ → m.held ≠ .none → m₁ = m

/-- The view is tracked in a mode. -/
def Setting.Tracks (S : Setting τ β Ans) (h : Held) : Prop := h = .wr ∨ S.track = true

namespace Logic

variable {I : Iface τ δ Op R Ans Ev} (L : Logic I β) (S : Setting τ β Ans)

/-- The condition of an operation: it is defined, keeps the invariant, and leads to `Φ`. -/
def Tr (o : Op) (m : Mode τ β) (Φ : R o → Mode τ β → Prop) : Prop :=
  ∀ t d, L.Inv m.sh d → L.own t m.view d → (S.Tracks m.held → L.sees m.view d) →
    I.valid t m.held o m.sh d ∧
    ∀ a r T' d', S.allows a → I.act t o a m.sh d = some (r, T', d') → L.Inv T' d' ∧
      ∃ b', L.own t b' d' ∧ (S.Tracks m.held → L.sees b' d') ∧ Φ r ⟨m.held, T', b'⟩

/-- The condition of a call at the very mode it is made in. -/
def pre₁ : (c : LockCall Op) → Mode τ β → (c.Res R → Mode τ β → Prop) → Prop
  | .rdlock, m, Φ => m.held = .none ∧ ∀ T b, S.acq m T b → Φ () ⟨.rd, T, b⟩
  | .wrlock, m, Φ => m.held = .none ∧ ∀ T b, S.acq m T b → Φ () ⟨.wr, T, b⟩
  | .unlock, m, Φ => m.held ≠ .none ∧ (m.held = .wr → S.rel m.sh) ∧ Φ () ⟨.none, m.sh, m.view⟩
  | .op o,   m, Φ => L.Tr S o m Φ

/-- The condition of a call, at whatever mode interference leaves. -/
def pre (c : LockCall Op) (m : Mode τ β) (Φ : c.Res R → Mode τ β → Prop) : Prop :=
  ∀ m₁, S.drift m m₁ → L.pre₁ S c m₁ Φ

/-- The verification condition of a program. -/
abbrev Safe {α : Type} (p : LProg Op R α) (m : Mode τ β) (Q : α → Mode τ β → Prop) : Prop :=
  p.wp (L.pre S) m Q

variable {L S}

theorem Tr.mono {o : Op} {m : Mode τ β} {Φ Ψ : R o → Mode τ β → Prop}
    (hΦ : ∀ r m', Φ r m' → Ψ r m') (h : L.Tr S o m Φ) : L.Tr S o m Ψ := by
  intro t d hd ho hv
  obtain ⟨hval, hact⟩ := h t d hd ho hv
  refine ⟨hval, fun a r T' d' hok ha => ?_⟩
  obtain ⟨hi, b', ho', hb, hr⟩ := hact a r T' d' hok ha
  exact ⟨hi, b', ho', hb, hΦ _ _ hr⟩

theorem pre_mono : Prog.Mono (L.pre S) := by
  intro c m Φ Ψ hΦ h m₁ hm₁
  cases c with
  | rdlock => exact ⟨(h m₁ hm₁).1, fun T b hb => hΦ _ _ ((h m₁ hm₁).2 T b hb)⟩
  | wrlock => exact ⟨(h m₁ hm₁).1, fun T b hb => hΦ _ _ ((h m₁ hm₁).2 T b hb)⟩
  | unlock => exact ⟨(h m₁ hm₁).1, (h m₁ hm₁).2.1, hΦ _ _ (h m₁ hm₁).2.2⟩
  | op o => exact Tr.mono hΦ (h m₁ hm₁)

/-- **Consequence.** -/
theorem Safe.mono {α : Type} {p : LProg Op R α} {m : Mode τ β} {P Q : α → Mode τ β → Prop}
    (h : L.Safe S p m P) (hPQ : ∀ a m', P a m' → Q a m') : L.Safe S p m Q :=
  Prog.wp_mono pre_mono p hPQ h

/-- **Sequencing.** -/
theorem Safe.seq {α γ : Type} {p : LProg Op R α} {f : α → LProg Op R γ} {m : Mode τ β}
    {P : α → Mode τ β → Prop} {Q : γ → Mode τ β → Prop} (h : L.Safe S p m P)
    (hf : ∀ a m', P a m' → L.Safe S (f a) m' Q) : L.Safe S (p >>= f) m Q :=
  Prog.wp_bind (h.mono hf)

theorem Safe.pure {α : Type} {a : α} {m : Mode τ β} {Q : α → Mode τ β → Prop} (h : Q a m) :
    L.Safe S (Pure.pure a : LProg Op R α) m Q :=
  Prog.wp_pure h

/-- **An operation.** -/
theorem Safe.op {o : Op} {m : Mode τ β} {Q : R o → Mode τ β → Prop}
    (h : ∀ m₁, S.drift m m₁ → L.Tr S o m₁ Q) : L.Safe S (LProg.op o) m Q :=
  Prog.wp_emit h

/-- **An operation under the lock.** -/
theorem Safe.locked {o : Op} {m : Mode τ β} {Q : R o → Mode τ β → Prop} (hm : m.held ≠ .none)
    (h : L.Tr S o m Q) : L.Safe S (LProg.op o) m Q :=
  Safe.op fun m₁ hm₁ => by rw [S.drift_locked hm₁ hm]; exact h

/-- **A critical section of a writer.** -/
theorem Safe.writing {α γ : Type} {body : LProg Op R α} {f : α → LProg Op R γ} {m : Mode τ β}
    {Q : γ → Mode τ β → Prop} (hm : m.held = .none)
    (h : ∀ m₁ T b, S.drift m m₁ → S.acq m₁ T b → L.Safe S body ⟨.wr, T, b⟩ fun a m' =>
      m'.held = .wr ∧ S.rel m'.sh ∧ L.Safe S (f a) ⟨.none, m'.sh, m'.view⟩ Q) :
    L.Safe S (do LProg.wrlock; let a ← body; LProg.unlock; f a) m Q := by
  refine Prog.wp_bind fun m₁ hm₁ => ⟨(S.drift_held hm₁).trans hm, fun T b hb => ?_⟩
  refine Safe.seq (h m₁ T b hm₁ hb) fun a m' ⟨hh, hr, hq⟩ => Prog.wp_bind fun m₂ hm₂ => ?_
  obtain rfl := S.drift_locked hm₂ (by rw [hh]; decide)
  exact ⟨by rw [hh]; decide, fun _ => hr, hq⟩

/-- **A critical section of a reader.** -/
theorem Safe.reading {α γ : Type} {body : LProg Op R α} {f : α → LProg Op R γ} {m : Mode τ β}
    {Q : γ → Mode τ β → Prop} (hm : m.held = .none)
    (h : ∀ m₁ T b, S.drift m m₁ → S.acq m₁ T b → L.Safe S body ⟨.rd, T, b⟩ fun a m' =>
      m'.held = .rd ∧ L.Safe S (f a) ⟨.none, m'.sh, m'.view⟩ Q) :
    L.Safe S (do LProg.rdlock; let a ← body; LProg.unlock; f a) m Q := by
  refine Prog.wp_bind fun m₁ hm₁ => ⟨(S.drift_held hm₁).trans hm, fun T b hb => ?_⟩
  refine Safe.seq (h m₁ T b hm₁ hb) fun a m' ⟨hh, hq⟩ => Prog.wp_bind fun m₂ hm₂ => ?_
  obtain rfl := S.drift_locked hm₂ (by rw [hh]; decide)
  exact ⟨by rw [hh]; decide, fun e => absurd (hh.symm.trans e) (by decide), hq⟩

/-! ### One step of a program -/

/-- The mode `m` can drift into one that is true of thread `t` now. -/
def Fits (L : Logic I β) (S : Setting τ β Ans) (m : Mode τ β) (t : Nat) (l : Lock) (T : τ) (d : δ) :
    Prop :=
  ∃ m₁, S.drift m m₁ ∧ m₁.held = l.held t ∧ m₁.sh = T ∧ L.own t m₁.view d ∧
    (S.Tracks m₁.held → L.sees m₁.view d)

theorem Fits.intro {m : Mode τ β} {t : Nat} {l : Lock} {T : τ} {d : δ} (hh : m.held = l.held t)
    (hT : m.sh = T) (ho : L.own t m.view d) (hv : S.Tracks m.held → L.sees m.view d) :
    L.Fits S m t l T d :=
  ⟨m, S.drift_refl m, hh, hT, ho, hv⟩

/-- The head operation of a safe program is defined behaviour. -/
theorem Safe.valid {α : Type} {o : Op} {k : R o → LProg Op R α} {m : Mode τ β} {t : Nat}
    {l : Lock} {T : τ} {d : δ} {Q : α → Mode τ β → Prop} (hp : L.Safe S (.call (.op o) k) m Q)
    (hm : L.Fits S m t l T d) (hi : L.Inv T d) : I.valid t (l.held t) o T d := by
  obtain ⟨m₁, hd, hh, rfl, ho, hv⟩ := hm
  exact hh ▸ (hp m₁ hd t d hi ho hv).1

/-- **A step of a safe program** leads to a safe program, and keeps the invariant; a thread that
stops writing pays what it owes. -/
theorem Safe.headStep {α : Type} {t : Nat} {a : Ans} {p p' : LProg Op R α} {l l' : Lock}
    {T T' : τ} {d d' : δ} {m : Mode τ β} {Q : α → Mode τ β → Prop} (hp : L.Safe S p m Q)
    (hm : L.Fits S m t l T d) (hi : L.Inv T d) (hok : S.allows a)
    (hacq : ∀ m₁, S.drift m m₁ → m₁.sh = T → L.own t m₁.view d →
      (S.Tracks m₁.held → L.sees m₁.view d) → l.NoWriter →
      ∃ b, S.acq m₁ T b ∧ L.own t b d ∧ L.sees b d)
    (hs : Conc.headStep I t a p l T d = some (p', l', T', d')) :
    L.Inv T' d' ∧ (∃ m', L.Fits S m' t l' T' d' ∧ L.Safe S p' m' Q) ∧
      (l.held t = .wr → l'.held t ≠ .wr → S.rel T') := by
  obtain ⟨m₁, hd, hh, rfl, ho, hv⟩ := id hm
  cases p with
  | ret x => cases hs
  | loop body k =>
      simp only [Conc.headStep, Option.some.injEq, Prod.mk.injEq] at hs
      obtain ⟨rfl, rfl, rfl, rfl⟩ := hs
      exact ⟨hi, ⟨m, hm, Prog.wp_unroll pre_mono hp⟩, fun h h' => absurd h h'⟩
  | call c k =>
      have hc := hp m₁ hd
      cases c with
      | rdlock =>
          obtain ⟨l₁, hl, e⟩ := Option.map_eq_some_iff.mp hs
          cases e
          obtain ⟨hn, -, hr, -⟩ := Lock.rdlock_spec hl
          obtain ⟨b, hb, hbo, hbd⟩ := hacq m₁ hd rfl ho hv hn
          refine ⟨hi, ⟨⟨.rd, m₁.sh, b⟩, Fits.intro hr.symm rfl hbo fun _ => hbd, hc.2 _ b hb⟩,
            fun h => ?_⟩
          rw [← hh, hc.1] at h; cases h
      | wrlock =>
          obtain ⟨l₁, hl, e⟩ := Option.map_eq_some_iff.mp hs
          cases e
          obtain ⟨hn, hw, -, -⟩ := Lock.wrlock_spec hl
          obtain ⟨b, hb, hbo, hbd⟩ := hacq m₁ hd rfl ho hv hn
          refine ⟨hi, ⟨⟨.wr, m₁.sh, b⟩, Fits.intro hw.symm rfl hbo fun _ => hbd, hc.2 _ b hb⟩,
            fun h => ?_⟩
          rw [← hh, hc.1] at h; cases h
      | unlock =>
          simp only [Conc.headStep, Option.some.injEq, Prod.mk.injEq] at hs
          obtain ⟨rfl, rfl, rfl, rfl⟩ := hs
          obtain ⟨hn, hr, hk⟩ := hc
          have hl : l.held t ≠ .none := hh ▸ hn
          refine ⟨hi, ⟨⟨.none, m₁.sh, m₁.view⟩,
            Fits.intro (Lock.unlock_spec hl).1.symm rfl ho fun ht => ?_, hk⟩,
            fun h _ => hr (hh.trans h)⟩
          exact hv (ht.elim (fun e => by cases e) Or.inr)
      | op o =>
          obtain ⟨r, ha, e⟩ := Option.map_eq_some_iff.mp hs
          cases e
          obtain ⟨-, hact⟩ := hc t d hi ho hv
          obtain ⟨hi', b', ho', hb', hk⟩ := hact a _ _ _ hok ha
          exact ⟨hi', ⟨⟨m₁.held, r.2.1, b'⟩, Fits.intro hh rfl ho' hb', hk⟩,
            fun h h' => absurd h h'⟩

/-! ### Alone -/

/-- Only the environment interferes: a mode keeps everything. -/
def alone (allows : Ans → Prop) : Setting τ β Ans where
  track := true
  allows := allows
  drift m m₁ := m₁ = m
  acq m T b := T = m.sh ∧ b = m.view
  rel _ := True
  drift_refl _ := rfl
  drift_held h := by rw [h]
  drift_view h := by rw [h]
  drift_locked h _ := h

variable {allows : Ans → Prop}

theorem fits_alone_iff {m : Mode τ β} {t : Nat} {l : Lock} {T : τ} {d : δ} :
    L.Fits (alone allows) m t l T d ↔
      m.held = l.held t ∧ m.sh = T ∧ L.own t m.view d ∧ L.sees m.view d := by
  constructor
  · rintro ⟨m₁, rfl, hh, hT, ho, hv⟩; exact ⟨hh, hT, ho, hv (Or.inr rfl)⟩
  · rintro ⟨hh, hT, ho, hv⟩; exact Fits.intro hh hT ho fun _ => hv

/-- What a lone run keeps. -/
def SoloOk {α : Type} (L : Logic I β) (allows : Ans → Prop) (t : Nat)
    (Q : α → Mode τ β → Prop) (s : Solo τ δ Op R α) : Prop :=
  L.Inv s.sh s.fr ∧ ∃ m, L.Fits (alone allows) m t s.lock s.sh s.fr ∧
    L.Safe (alone allows) s.rest m Q

/-- The answers among the items of a lone run are of the allowed ones. -/
def Allowed (allows : Ans → Prop) (is : List (Item Ans Ev)) : Prop :=
  ∀ a, Item.ans a ∈ is → allows a

/-- Any answers are. -/
theorem allowed_any (is : List (Item Ans Ev)) : Allowed (fun _ => True) is := fun _ _ => trivial

theorem SoloOk.step {α : Type} {t : Nat} {Q : α → Mode τ β → Prop} {s s' : Solo τ δ Op R α}
    {i : Item Ans Ev} (h : SoloOk L allows t Q s) (hok : ∀ a, i = .ans a → allows a)
    (hs : s.step I t i = some s') : SoloOk L allows t Q s' := by
  obtain ⟨hi, m, hm, hp⟩ := h
  cases i with
  | env e =>
      obtain ⟨d, hd, rfl⟩ := Option.map_eq_some_iff.mp hs
      obtain ⟨hh, hT, ho, hv⟩ := fits_alone_iff.mp hm
      exact ⟨L.env_inv hi hd, m,
        fits_alone_iff.mpr ⟨hh, hT, L.env_own hd ho, L.env_sees hi hd hv⟩, hp⟩
  | ans a =>
      obtain ⟨⟨p', l', T', d'⟩, hr, rfl⟩ := Option.map_eq_some_iff.mp hs
      obtain ⟨hi', hm', -⟩ := hp.headStep hm hi (hok a rfl) (fun m₁ _ hT ho hv _ =>
        ⟨m₁.view, ⟨hT.symm, rfl⟩, ho, hv (Or.inr rfl)⟩) hr
      exact ⟨hi', hm'⟩

/-- The operation a lone run comes to is defined behaviour. -/
theorem SoloOk.valid {α : Type} {t : Nat} {Q : α → Mode τ β → Prop} {s : Solo τ δ Op R α}
    (h : SoloOk L allows t Q s) {o : Op} {k : R o → LProg Op R α} (hk : s.rest = .call (.op o) k) :
    I.valid t (s.lock.held t) o s.sh s.fr := by
  obtain ⟨hi, m, hm, hq⟩ := h
  rw [hk] at hq
  exact Safe.valid hq hm hi

theorem SoloOk.run {α : Type} {t : Nat} {Q : α → Mode τ β → Prop} {is : List (Item Ans Ev)}
    {s s' : Solo τ δ Op R α} (h : SoloOk L allows t Q s) (hok : Allowed allows is)
    (hs : Solo.run I t is s = some s') : SoloOk L allows t Q s' := by
  induction is generalizing s with
  | nil => cases hs; exact h
  | cons i is ih =>
      obtain ⟨s₁, h₁, h₂⟩ := Option.bind_eq_some_iff.mp hs
      refine ih (h.step (fun a e => hok a (by rw [e]; exact List.mem_cons_self)) h₁)
        (fun a ha => hok a (List.mem_cons_of_mem _ ha)) h₂

/-- **Soundness, alone.**  A lone run of a safe program ends with its goal. -/
theorem exec_safe {α : Type} {t : Nat} {p : LProg Op R α} {is : List (Item Ans Ev)} {T T' : τ}
    {d d' : δ} {b : β} {x : α} {Q : α → Mode τ β → Prop} (hi : L.Inv T d) (ho : L.own t b d)
    (hb : L.sees b d) (hp : L.Safe (alone allows) p ⟨.none, T, b⟩ Q) (hok : Allowed allows is)
    (he : exec I t p is T d = some (x, T', d')) :
    L.Inv T' d' ∧ ∃ b', L.own t b' d' ∧ L.sees b' d' ∧ Q x ⟨.none, T', b'⟩ := by
  obtain ⟨s, hs, hr⟩ := Option.bind_eq_some_iff.mp he
  have h₀ : SoloOk L allows t Q ⟨p, .free, T, d⟩ :=
    ⟨hi, ⟨.none, T, b⟩, fits_alone_iff.mpr ⟨by simp, rfl, ho, hb⟩, hp⟩
  obtain ⟨hi', m, hm, hq⟩ := h₀.run hok hs
  obtain ⟨rest, l, T₁, d₁⟩ := s
  obtain ⟨hh, rfl, ho', hv⟩ := fits_alone_iff.mp hm
  cases rest with
  | ret y =>
      cases l with
      | reading rs =>
          simp only [Solo.result] at hr
          split at hr
          · rename_i e
            cases hr
            subst e
            obtain ⟨hd, sh, view⟩ := m
            obtain rfl : hd = .none := hh
            exact ⟨hi', view, ho', hv, hq⟩
          · cases hr
      | writing u => cases hr
  | call c k => cases l <;> cases hr
  | loop body k => cases l <;> cases hr

/-- What every operation that is defined behaviour and the environment keep of the state, a safe
program run alone keeps. -/
theorem exec_keeps_valid {K : τ → δ → Prop}
    (hact : ∀ {h t o a T d r T' d'}, I.valid t h o T d → I.act t o a T d = some (r, T', d') →
      K T d → K T' d')
    (henv : ∀ {e T d d'}, I.env e T d = some d' → K T d → K T d') {α : Type} {t : Nat}
    {p : LProg Op R α} {is : List (Item Ans Ev)} {T T' : τ} {d d' : δ} {b : β} {x : α}
    {Q : α → Mode τ β → Prop} (hi : L.Inv T d) (ho : L.own t b d) (hb : L.sees b d)
    (hp : L.Safe (alone allows) p ⟨.none, T, b⟩ Q) (hok : Allowed allows is)
    (he : exec I t p is T d = some (x, T', d')) (hK : K T d) : K T' d' := by
  have hrun : ∀ (is : List (Item Ans Ev)) (s : Solo τ δ Op R α), SoloOk L allows t Q s →
      Allowed allows is → K s.sh s.fr → Solo.run I t is s = some ⟨.ret x, .free, T', d'⟩ →
      K T' d' := by
    intro is
    induction is with
    | nil =>
        intro s _ _ hK₁ h₁
        cases h₁
        exact hK₁
    | cons i is ih =>
        intro s hs hok hK₁ h₁
        obtain ⟨s₂, h₂, h₃⟩ := Option.bind_eq_some_iff.mp h₁
        have hs₂ : SoloOk L allows t Q s₂ :=
          hs.step (fun a e => hok a (by rw [e]; exact List.mem_cons_self)) h₂
        refine ih s₂ hs₂ (fun a ha => hok a (List.mem_cons_of_mem _ ha)) ?_ h₃
        cases i with
        | env e =>
            obtain ⟨d₂, hd₂, rfl⟩ := Option.map_eq_some_iff.mp h₂
            exact henv hd₂ hK₁
        | ans a =>
            obtain ⟨⟨p', l', T₂, d₂⟩, hr, rfl⟩ := Option.map_eq_some_iff.mp h₂
            rcases headStep_act hr with ⟨rfl, rfl⟩ | ⟨o, k, y, hrest, ha, -⟩
            · exact hK₁
            · exact hact (hs.valid hrest) ha hK₁
  have hstart : SoloOk L allows t Q ⟨p, .free, T, d⟩ :=
    ⟨hi, ⟨.none, T, b⟩, fits_alone_iff.mpr ⟨by simp, rfl, ho, hb⟩, hp⟩
  exact hrun is _ hstart hok hK (exec_eq_some.mp he)

/-! ### Among other threads -/

/-- Other threads interfere: a mode keeps what the lock protects, and the lock passes on the
invariant `J` of the guarded state; `enter b T b'` is what the view may become then. -/
def shared (J : τ → Prop) (enter : β → τ → β → Prop) : Setting τ β Ans where
  track := false
  allows _ := True
  drift m m₁ := m₁.held = m.held ∧ (m.held ≠ .none → m₁.sh = m.sh) ∧ m₁.view = m.view
  acq m T b := J T ∧ enter m.view T b
  rel := J
  drift_refl _ := ⟨rfl, fun _ => rfl, rfl⟩
  drift_held h := h.1
  drift_view h := h.2.2
  drift_locked := by
    rintro ⟨h, T, b⟩ ⟨h', T', b'⟩ ⟨e₁, e₂, e₃⟩ hn
    obtain rfl : h' = h := e₁
    obtain rfl : T' = T := e₂ hn
    obtain rfl : b' = b := e₃
    rfl

/-- What a family of programs run by threads must meet: a thread starts with a view in `start`
that is true of what is its own, and gives one back. -/
structure Sharing (L : Logic I β) {Call : Type} {Ret : Call → Type}
    (prog : (c : Call) → LProg Op R (Ret c)) where
  J : τ → Prop
  enter : β → τ → β → Prop
  start : β → Prop
  henter : ∀ {t b T d}, L.Inv T d → L.own t b d → ∃ b', enter b T b' ∧ L.own t b' d ∧ L.sees b' d
  hprog : ∀ c T b, start b → L.Safe (shared J enter) (prog c) ⟨.none, T, b⟩ fun _ m' =>
    m'.held = .none ∧ start m'.view

section pool

variable {Call : Type} {Ret : Call → Type} {prog : (c : Call) → LProg Op R (Ret c)}
  (P : Sharing L prog)

/-- The setting of the threads of `P`. -/
abbrev Sharing.setting : Setting τ β Ans := shared P.J P.enter

variable {P}

/-- A mode is kept by an operation of another thread. -/
theorem Fits.op_other {m : Mode τ β} {t u : Nat} (hu : u ≠ t) {a : Ans} {o : Op} {r : R o}
    {l : Lock} {T T' : τ} {d d' : δ} (hm : L.Fits P.setting m u l T d)
    (hval : I.valid t (l.held t) o T d) (ha : I.act t o a T d = some (r, T', d')) :
    L.Fits P.setting m u l T' d' := by
  obtain ⟨m₁, hd, hh, rfl, ho, hv⟩ := hm
  have ho' := L.act_own hu ha ho
  cases hl : l.held u with
  | none =>
      -- nothing is promised of the guarded state to a thread that does not hold the lock
      have hn : m.held = .none := hd.1.symm.trans (hh.trans hl)
      refine ⟨⟨.none, T', m₁.view⟩, ⟨hn.symm, fun h => absurd hn h, hd.2.2⟩, hl.symm, rfl, ho',
        fun h => ?_⟩
      rcases h with h | h <;> cases h
  | rd =>
      have hT : T' = m₁.sh := by
        cases ht : l.held t with
        | none => rw [ht] at hval; exact (L.none_frame hval ha).1
        | rd => rw [ht] at hval; exact L.rd_frame hval ha
        | wr => rw [Lock.held_of_wr ht hu] at hl; cases hl
      refine ⟨m₁, hd, hh, hT.symm, ho', fun h => ?_⟩
      rcases h with h | h
      · rw [hh, hl] at h; cases h
      · cases h
  | wr =>
      rw [Lock.held_of_wr hl hu.symm] at hval
      obtain ⟨rfl, hsee⟩ := L.none_frame hval ha
      exact ⟨m₁, hd, hh, rfl, ho', fun h => hsee _ (hv h)⟩

/-- A mode is kept by a change of the lock that is none of its thread's. -/
theorem Fits.relock {m : Mode τ β} {u : Nat} {l l' : Lock} {T : τ} {d : δ}
    (hm : L.Fits S m u l T d) (h : l'.held u = l.held u) : L.Fits S m u l' T d := by
  obtain ⟨m₁, hd, hh, hv⟩ := hm
  exact ⟨m₁, hd, hh.trans h.symm, hv⟩

theorem Fits.env {m : Mode τ β} {u : Nat} {l : Lock} {T : τ} {d d' : δ} {e : Ev}
    (hm : L.Fits S m u l T d) (hi : L.Inv T d) (he : I.env e T d = some d') :
    L.Fits S m u l T d' := by
  obtain ⟨m₁, hd, hh, rfl, ho, hv⟩ := hm
  exact ⟨m₁, hd, hh, rfl, L.env_own he ho, fun h => L.env_sees hi he (hv h)⟩

/-- **A step of one thread, seen by the others**: their modes still fit, how they hold the lock
does not change, and unless the stepping thread writes, a lock without a writer guards what it
guarded. -/
theorem Safe.headStep_other {α : Type} {t : Nat} {a : Ans} {p p' : LProg Op R α} {l l' : Lock}
    {T T' : τ} {d d' : δ} {m : Mode τ β} {Q : α → Mode τ β → Prop}
    (hp : L.Safe P.setting p m Q) (hm : L.Fits P.setting m t l T d)
    (hi : L.Inv T d) (hs : Conc.headStep I t a p l T d = some (p', l', T', d')) :
    (∀ u, u ≠ t → l'.held u = l.held u ∧ (∀ m', L.Fits P.setting m' u l T d →
      L.Fits P.setting m' u l' T' d') ∧ ∀ b, L.own u b d → L.own u b d') ∧
    (l'.NoWriter → l.held t = .wr ∨ l.NoWriter ∧ T' = T) := by
  cases p with
  | ret x => cases hs
  | loop body k =>
      simp only [Conc.headStep, Option.some.injEq, Prod.mk.injEq] at hs
      obtain ⟨rfl, rfl, rfl, rfl⟩ := hs
      exact ⟨fun u _ => ⟨rfl, fun _ h => h, fun _ h => h⟩, fun h => Or.inr ⟨h, rfl⟩⟩
  | call c k =>
      cases c with
      | rdlock =>
          obtain ⟨l₁, hl, e⟩ := Option.map_eq_some_iff.mp hs
          cases e
          obtain ⟨hn, -, -, ho⟩ := Lock.rdlock_spec hl
          exact ⟨fun u hu => ⟨ho u hu, fun _ h => h.relock (ho u hu), fun _ h => h⟩,
            fun _ => Or.inr ⟨hn, rfl⟩⟩
      | wrlock =>
          obtain ⟨l₁, hl, e⟩ := Option.map_eq_some_iff.mp hs
          cases e
          obtain ⟨hn, -, h₀, ho⟩ := Lock.wrlock_spec hl
          have he : ∀ u, u ≠ t → l'.held u = l.held u := fun u hu => (ho u hu).trans (h₀ u).symm
          exact ⟨fun u hu => ⟨he u hu, fun _ h => h.relock (he u hu), fun _ h => h⟩,
            fun _ => Or.inr ⟨hn, rfl⟩⟩
      | unlock =>
          simp only [Conc.headStep, Option.some.injEq, Prod.mk.injEq] at hs
          obtain ⟨rfl, rfl, rfl, rfl⟩ := hs
          obtain ⟨m₁, hd, hh, -, -⟩ := hm
          have hl : l.held t ≠ .none := hh ▸ (hp m₁ hd).1
          obtain ⟨-, -, ho⟩ := Lock.unlock_spec hl
          refine ⟨fun u hu => ⟨ho u hu, fun _ h => h.relock (ho u hu), fun _ h => h⟩, fun _ => ?_⟩
          cases e : l.held t with
          | none => exact absurd e hl
          | rd => exact Or.inr ⟨Lock.noWriter_of_held e, rfl⟩
          | wr => exact Or.inl rfl
      | op o =>
          obtain ⟨r, ha, e⟩ := Option.map_eq_some_iff.mp hs
          cases e
          have hval := Safe.valid hp hm hi
          refine ⟨fun u hu => ⟨rfl, fun _ h => h.op_other hu hval ha,
            fun _ h => L.act_own hu ha h⟩, fun hn => ?_⟩
          cases e : l.held t with
          | none => rw [e] at hval; exact Or.inr ⟨hn, (L.none_frame hval ha).1⟩
          | rd => rw [e] at hval; exact Or.inr ⟨hn, L.rd_frame hval ha⟩
          | wr => exact Or.inl rfl

/-- What the machine keeps: the global invariant, the table invariant whenever nobody writes,
for an idle thread a view to start with, and for a busy one a mode its program is safe from. -/
structure Good (P : Sharing L prog) (s : Cfg τ δ Op R Call Ret) : Prop where
  inv : L.Inv s.sh s.fr
  tab : s.lock.NoWriter → P.J s.sh
  idle : ∀ t, s.thr t = none → s.lock.held t = .none ∧ ∃ b, P.start b ∧ L.own t b s.fr
  busy : ∀ t task, s.thr t = some task → ∃ m, L.Fits P.setting m t s.lock s.sh s.fr ∧
    L.Safe P.setting task.rest m fun _ m' => m'.held = .none ∧ P.start m'.view

theorem good_init {T : τ} {d : δ} (hi : L.Inv T d) (hJ : P.J T)
    (ho : ∀ t, ∃ b, P.start b ∧ L.own t b d) :
    Good P (Cfg.init T d : Cfg τ δ Op R Call Ret) :=
  ⟨hi, fun _ => hJ, fun t _ => ⟨by simp [Cfg.init], ho t⟩, fun t task h => by cases h⟩

/-- Every step keeps `Good`. -/
theorem Good.step {s s' : Cfg τ δ Op R Call Ret} {lab : Label Ans Ev Call}
    (h : Good P s) (hs : s.step I prog lab = some s') : Good P s' := by
  cases lab with
  | start t c =>
      cases ht : s.thr t with
      | some task => simp [Cfg.step, ht] at hs
      | none =>
          simp only [Cfg.step, ht, Option.some.injEq] at hs
          subst hs
          refine ⟨h.inv, h.tab, fun u hu => ?_, fun u task hu => ?_⟩
          · by_cases e : u = t
            · subst e; exact h.idle u ht
            · exact h.idle u (by simpa [e] using hu)
          · by_cases e : u = t
            · subst e
              obtain ⟨hn, b, hb, ho⟩ := h.idle u ht
              obtain rfl : (⟨c, prog c⟩ : Task Op R Call Ret) = task := by simpa using hu
              refine ⟨⟨.none, s.sh, b⟩, Fits.intro hn.symm rfl ho fun e => ?_, P.hprog c _ b hb⟩
              rcases e with e | e <;> cases e
            · exact h.busy u task (by simpa [e] using hu)
  | step t a =>
      cases ht : s.thr t with
      | none => simp [Cfg.step, ht] at hs
      | some task =>
          simp only [Cfg.step, ht] at hs
          obtain ⟨⟨p', l', T', d'⟩, hr, rfl⟩ := Option.map_eq_some_iff.mp hs
          obtain ⟨m, hm, hp⟩ := h.busy t task ht
          obtain ⟨hi', ⟨m', hm', hp'⟩, hrel⟩ := hp.headStep hm h.inv trivial (fun m₁ _ _ ho _ hn => by
            obtain ⟨b, hb, hbo, hbd⟩ := P.henter h.inv ho
            exact ⟨b, ⟨h.tab hn, hb⟩, hbo, hbd⟩) hr
          obtain ⟨hoth, hwr⟩ := hp.headStep_other hm h.inv hr
          refine ⟨hi', fun hn => ?_, fun u hu => ?_, fun u task' hu => ?_⟩
          · rcases hwr hn with hw | ⟨hn', rfl⟩
            · refine hrel hw fun e => ?_
              cases l' with
              | reading rs => simp only [Lock.held] at e; split at e <;> cases e
              | writing v => exact hn
            · exact h.tab hn'
          · by_cases e : u = t
            · subst e; simp at hu
            · obtain ⟨hn, b, hb, ho⟩ := h.idle u (by simpa [e] using hu)
              exact ⟨(hoth u e).1.trans hn, b, hb, (hoth u e).2.2 b ho⟩
          · by_cases e : u = t
            · subst e
              obtain rfl : (⟨task.call, p'⟩ : Task Op R Call Ret) = task' := by simpa using hu
              exact ⟨m', hm', hp'⟩
            · obtain ⟨mu, hmu, hpu⟩ := h.busy u task' (by simpa [e] using hu)
              exact ⟨mu, (hoth u e).2.1 mu hmu, hpu⟩
  | finish t =>
      cases ht : s.thr t with
      | none => simp [Cfg.step, ht] at hs
      | some task =>
          obtain ⟨c, rest⟩ := task
          cases rest with
          | call _ _ => simp [Cfg.step, ht] at hs
          | loop _ _ => simp [Cfg.step, ht] at hs
          | ret x =>
              simp only [Cfg.step, ht, Option.some.injEq] at hs
              subst hs
              obtain ⟨m, ⟨m₁, hd, hh, -, ho, -⟩, hp⟩ := h.busy t _ ht
              refine ⟨h.inv, h.tab, fun u hu => ?_, fun u task hu => ?_⟩
              · by_cases e : u = t
                · subst e
                  exact ⟨hh.symm.trans (hd.1.trans hp.1), m₁.view, hd.2.2 ▸ hp.2, ho⟩
                · exact h.idle u (by simpa [e] using hu)
              · by_cases e : u = t
                · subst e; simp at hu
                · exact h.busy u task (by simpa [e] using hu)
  | env e =>
      obtain ⟨d, hd, rfl⟩ := Option.map_eq_some_iff.mp hs
      refine ⟨L.env_inv h.inv hd, h.tab, fun u hu => ?_, fun u task hu => ?_⟩
      · obtain ⟨hn, b, hb, ho⟩ := h.idle u hu
        exact ⟨hn, b, hb, L.env_own hd ho⟩
      · obtain ⟨m, hm, hp⟩ := h.busy u task hu
        exact ⟨m, hm.env h.inv hd, hp⟩

/-- **What a thread keeps** while others step: its position and its hold on the lock, and while it
reads the guarded state. -/
theorem Good.step_other {s s' : Cfg τ δ Op R Call Ret} {lab : Label Ans Ev Call} {t : Nat}
    (h : Good P s) (hs : s.step I prog lab = some s') (hne : lab.thread ≠ some t) :
    s'.thr t = s.thr t ∧ s'.lock.held t = s.lock.held t ∧
      (s.lock.held t = .rd → s'.sh = s.sh) := by
  have hupd : ∀ {u : Nat} (x : Option (Task Op R Call Ret)), some u ≠ some t →
      Function.update s.thr u x t = s.thr t := fun _ hu =>
    Function.update_of_ne (fun e => hu (congrArg some e.symm)) _ _
  cases lab with
  | start u c =>
      simp only [Cfg.step] at hs
      split at hs <;> cases hs
      exact ⟨hupd _ hne, rfl, fun _ => rfl⟩
  | finish u =>
      simp only [Cfg.step] at hs
      split at hs <;> cases hs
      exact ⟨hupd _ hne, rfl, fun _ => rfl⟩
  | env e =>
      obtain ⟨d, -, rfl⟩ := Option.map_eq_some_iff.mp hs
      exact ⟨rfl, rfl, fun _ => rfl⟩
  | step u a =>
      cases hu : s.thr u with
      | none => simp [Cfg.step, hu] at hs
      | some task =>
          simp only [Cfg.step, hu] at hs
          obtain ⟨⟨p', l', T', d'⟩, hr, rfl⟩ := Option.map_eq_some_iff.mp hs
          obtain ⟨m, hm, hp⟩ := h.busy u task hu
          obtain ⟨hoth, hwr⟩ := hp.headStep_other hm h.inv hr
          have hne' : t ≠ u := fun e => hne (congrArg some e.symm)
          have hheld := (hoth t hne').1
          refine ⟨hupd _ hne, hheld, fun ht => ?_⟩
          rcases hwr (Lock.noWriter_of_held (hheld.trans ht)) with hw | ⟨-, hT⟩
          · rw [Lock.held_of_wr hw hne'] at ht
            cases ht
          · exact hT

/-- The step of anyone else leaves the thread a mode that fits. -/
theorem Good.fits_other {s s' : Cfg τ δ Op R Call Ret} {lab : Label Ans Ev Call} {t : Nat}
    {m : Mode τ β} (h : Good P s) (hs : s.step I prog lab = some s') (hne : lab.thread ≠ some t)
    (hm : L.Fits P.setting m t s.lock s.sh s.fr) : L.Fits P.setting m t s'.lock s'.sh s'.fr := by
  cases lab with
  | start u c =>
      simp only [Cfg.step] at hs
      split at hs <;> cases hs
      exact hm
  | finish u =>
      simp only [Cfg.step] at hs
      split at hs <;> cases hs
      exact hm
  | env e =>
      obtain ⟨d, hd, rfl⟩ := Option.map_eq_some_iff.mp hs
      exact hm.env h.inv hd
  | step u a =>
      cases hu : s.thr u with
      | none => simp [Cfg.step, hu] at hs
      | some task =>
          simp only [Cfg.step, hu] at hs
          obtain ⟨⟨p', l', T', d'⟩, hr, rfl⟩ := Option.map_eq_some_iff.mp hs
          obtain ⟨mu, hmu, hp⟩ := h.busy u task hu
          have hne' : t ≠ u := fun e => hne (congrArg some e.symm)
          exact ((hp.headStep_other hmu h.inv hr).1 t hne').2.1 m hm

/-- **Soundness, among other threads.**  Every reachable configuration is `Good`. -/
theorem reach_good {s s' : Cfg τ δ Op R Call Ret} (h : Good P s)
    (hr : Cfg.Reach I prog s s') : Good P s' := by
  induction hr with
  | refl => exact h
  | step l _ hs ih => exact ih.step hs

/-- A call starts at its program, not holding the lock. -/
theorem Good.start {s s' : Cfg τ δ Op R Call Ret} {t : Nat} {c : Call} (h : Good P s)
    (hs : s.step I prog (.start t c : Label Ans Ev Call) = some s') :
    s'.thr t = some ⟨c, prog c⟩ ∧
      ∃ m, m.held = .none ∧ L.Fits P.setting m t s'.lock s'.sh s'.fr := by
  cases hu : s.thr t with
  | some task => simp [Cfg.step, hu] at hs
  | none =>
      simp only [Cfg.step, hu, Option.some.injEq] at hs
      subst hs
      obtain ⟨hheld, b, -, hown⟩ := h.idle t hu
      refine ⟨Function.update_self .., ⟨.none, s.sh, b⟩, rfl, ?_⟩
      exact Fits.intro hheld.symm rfl hown fun e => e.elim Held.noConfusion Bool.noConfusion

/-- A thread at a part of its program, with `f` to follow, stays there or has come to `f`. -/
theorem Good.part_step {s s' : Cfg τ δ Op R Call Ret} {lab : Label Ans Ev Call} {t : Nat}
    {c : Call} {α : Type} {q : LProg Op R α} {f : α → LProg Op R (Ret c)} {m : Mode τ β}
    {Q : α → Mode τ β → Prop} (h : Good P s) (hs : s.step I prog lab = some s')
    (hfin : lab ≠ .finish t) (ht : s.thr t = some ⟨c, q >>= f⟩)
    (hm : L.Fits P.setting m t s.lock s.sh s.fr) (hq : L.Safe P.setting q m Q) :
    (∃ v, q = .ret v) ∨ ∃ q' m', s'.thr t = some ⟨c, q' >>= f⟩ ∧
      L.Fits P.setting m' t s'.lock s'.sh s'.fr ∧ L.Safe P.setting q' m' Q := by
  by_cases hlab : lab.thread = some t
  · cases lab with
    | env e => cases hlab
    | finish u => exact absurd (congrArg Label.finish (Option.some.inj hlab)) hfin
    | start u c' =>
        obtain rfl := Option.some.inj hlab
        simp [Cfg.step, ht] at hs
    | step u a =>
        obtain rfl := Option.some.inj hlab
        simp only [Cfg.step, ht] at hs
        obtain ⟨⟨p', l', T', d'⟩, hr, rfl⟩ := Option.map_eq_some_iff.mp hs
        rcases headStep_of_bind hr with hret | ⟨q', hstep, rfl⟩
        · exact Or.inl hret
        · obtain ⟨-, ⟨m', hm', hq'⟩, -⟩ := hq.headStep hm h.inv trivial
            (fun m₁ _ _ ho _ hn => by
              obtain ⟨b, hb, hbo, hbd⟩ := P.henter h.inv ho
              exact ⟨b, ⟨h.tab hn, hb⟩, hbo, hbd⟩) hstep
          exact Or.inr ⟨q', m', Function.update_self .., hm', hq'⟩
  · exact Or.inr ⟨q, m, ((h.step_other hs hlab).1).trans ht, h.fits_other hs hlab hm, hq⟩

/-- **A part of a program, among other threads.**  A thread that returns has passed the end of every
part of its program, and what the part is safe for held there. -/
theorem Good.part_ends {s s' : Cfg τ δ Op R Call Ret} {ls : List (Label Ans Ev Call)} {t : Nat}
    {c : Call} {α : Type} {q : LProg Op R α} {f : α → LProg Op R (Ret c)} {m : Mode τ β}
    {Q : α → Mode τ β → Prop} {x : Ret c} (h : Good P s)
    (hrun : Cfg.run I prog ls s = some s') (hfin : .finish t ∉ ls)
    (ht : s.thr t = some ⟨c, q >>= f⟩) (hm : L.Fits P.setting m t s.lock s.sh s.fr)
    (hq : L.Safe P.setting q m Q) (hx : s'.thr t = some ⟨c, .ret x⟩) :
    ∃ ls₁ s₁ ls₂ v m₁, ls = ls₁ ++ ls₂ ∧ Cfg.run I prog ls₁ s = some s₁ ∧
      Cfg.run I prog ls₂ s₁ = some s' ∧ s₁.thr t = some ⟨c, f v⟩ ∧
      L.Fits P.setting m₁ t s₁.lock s₁.sh s₁.fr ∧ Q v m₁ := by
  induction ls generalizing s q m with
  | nil =>
      cases hrun
      have hrest : q >>= f = .ret x := by
        have htask := Option.some.inj (ht.symm.trans hx)
        simpa using htask
      cases q with
      | ret v => exact ⟨[], _, [], v, m, rfl, rfl, rfl, ht, hm, hq⟩
      | call _ _ => cases hrest
      | loop _ _ => cases hrest
  | cons l ls ih =>
      obtain ⟨s₁, h₁, h₂⟩ := Option.bind_eq_some_iff.mp hrun
      rcases h.part_step h₁ (fun e => hfin (e ▸ List.mem_cons_self)) ht hm hq with
        ⟨v, rfl⟩ | ⟨q₁, m₁, ht₁, hm₁, hq₁⟩
      · exact ⟨[], s, l :: ls, v, m, rfl, rfl, hrun, ht, hm, hq⟩
      · obtain ⟨ls₁, s₂, ls₂, v, m₂, rfl, hr₁, hr₂, hrest⟩ :=
          ih (h.step h₁) h₂ (fun hmem => hfin (List.mem_cons_of_mem _ hmem)) ht₁ hm₁ hq₁
        exact ⟨l :: ls₁, s₂, ls₂, v, m₂, rfl, Option.bind_eq_some_iff.mpr ⟨s₁, h₁, hr₁⟩, hr₂, hrest⟩

/-- A thread that has its result keeps it until it returns. -/
theorem Good.stays {s s' : Cfg τ δ Op R Call Ret} {ls : List (Label Ans Ev Call)} {t : Nat}
    {c : Call} {x : Ret c} (h : Good P s) (hrun : Cfg.run I prog ls s = some s')
    (hfin : .finish t ∉ ls) (ht : s.thr t = some ⟨c, .ret x⟩) : s'.thr t = some ⟨c, .ret x⟩ := by
  induction ls generalizing s with
  | nil =>
      cases hrun
      exact ht
  | cons l ls ih =>
      obtain ⟨s₁, h₁, h₂⟩ := Option.bind_eq_some_iff.mp hrun
      refine ih (h.step h₁) h₂ (fun hmem => hfin (List.mem_cons_of_mem _ hmem)) ?_
      refine (h.step_other h₁ fun hlab => ?_).1.trans ht
      cases l with
      | env e => cases hlab
      | finish u => exact hfin (Option.some.inj hlab ▸ List.mem_cons_self)
      | start u c' =>
          obtain rfl := Option.some.inj hlab
          simp [Cfg.step, ht] at h₁
      | step u a =>
          obtain rfl := Option.some.inj hlab
          simp [Cfg.step, ht, headStep] at h₁

/-- The operation a thread of a `Good` configuration comes to is defined behaviour. -/
theorem Good.valid {s : Cfg τ δ Op R Call Ret} (h : Good P s) {t : Nat} {c : Call}
    {o : Op} {k : R o → LProg Op R (Ret c)} (ht : s.thr t = some ⟨c, .call (.op o) k⟩) :
    I.valid t (s.lock.held t) o s.sh s.fr := by
  obtain ⟨m, hm, hp⟩ := h.busy t _ ht
  exact Safe.valid hp hm h.inv

/-- **What the lock protects**: while a thread holds it, no other step changes the guarded state. -/
theorem Good.step_guard {s s' : Cfg τ δ Op R Call Ret} {lab : Label Ans Ev Call} {t : Nat}
    (h : Good P s) (hs : s.step I prog lab = some s') (hne : lab.thread ≠ some t)
    (hheld : s.lock.held t ≠ .none) : s'.sh = s.sh := by
  rcases Cfg.step_act hs with ⟨hsh, -⟩ | ⟨u, o, a, r, rfl, hnext, ha⟩ | ⟨hsh, -⟩
  · exact hsh
  · have hu : u ≠ t := fun e => hne (congrArg some e)
    obtain ⟨c, k, hthr⟩ := Cfg.next_eq_some.mp hnext
    have hval := h.valid hthr
    cases hl : s.lock.held t with
    | none => exact absurd hl hheld
    | rd => exact (h.step_other hs hne).2.2 hl
    | wr =>
        rw [Lock.held_of_wr hl hu] at hval
        exact (L.none_frame hval ha).1
  · exact hsh

end pool

end Logic

end Conc
