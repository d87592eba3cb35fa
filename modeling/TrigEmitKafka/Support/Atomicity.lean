import Mathlib.Logic.Relation
import TrigEmitKafka.Support.LockLogic

/-!
# Support — critical sections are atomic

An `Object` is what concurrent calls do to an abstract state, in atomic moves: a call goes from
`start` by moves of its own until it can return.  What can be seen of a run is its calls, its
returns, and what shows of its environment (`Event`); `Object.Run` are the runs of an object.
Where every call takes one move, to be a run of the object is to be linearizable.

`Atomic` says how the guarded state stands for the abstract one, and what the programs of the calls
must meet: a call works apart from the lock, and then returns or is one critical section.  A
writer's section is one move, taken when it lets go of the lock; a reader's operations are moves
of their own, or none.

* `Atomic.refines`: what is seen of a run of the machine is seen of a run of the object, and
  whenever nobody writes, its state is the one the guarded state stands for.
-/

namespace Conc

/-! ### What is seen of a run -/

/-- A call is made, or returns, or something shows of the environment. -/
inductive Event (Call : Type) (Ret : Call → Type) (Shown : Type) where
  | call (t : Nat) (c : Call)
  | ret (t : Nat) (c : Call) (r : Ret c)
  | env (o : Shown)

section seen

variable {τ δ Op : Type} {R : Op → Type} {Ans Ev Call Shown : Type} {Ret : Call → Type}

/-- What is seen of a step, where `shows` is what shows of a step of the environment. -/
def Label.event (shows : δ → Ev → Option Shown) (s : Cfg τ δ Op R Call Ret) :
    Label Ans Ev Call → Option (Event Call Ret Shown)
  | .start t c => some (.call t c)
  | .finish t  =>
      match s.thr t with
      | some ⟨c, .ret x⟩ => some (.ret t c x)
      | _                => none
  | .step _ _  => none
  | .env e     => (shows s.fr e).map .env

variable (I : Iface τ δ Op R Ans Ev) (prog : (c : Call) → LProg Op R (Ret c))
  (shows : δ → Ev → Option Shown)

/-- What is seen of a run. -/
def Cfg.seen : List (Label Ans Ev Call) → Cfg τ δ Op R Call Ret → List (Event Call Ret Shown)
  | [],      _ => []
  | l :: ls, s => (l.event shows s).toList ++ (s.step I prog l).elim [] (seen ls)

variable {I prog shows}

theorem Cfg.seen_snoc {ls : List (Label Ans Ev Call)} {s s' : Cfg τ δ Op R Call Ret}
    (h : Cfg.run I prog ls s = some s') (l : Label Ans Ev Call) :
    Cfg.seen I prog shows (ls ++ [l]) s =
      Cfg.seen I prog shows ls s ++ (l.event shows s').toList := by
  induction ls generalizing s with
  | nil =>
      obtain rfl : s = s' := Option.some.inj h
      cases hl : s.step I prog l <;> simp [Cfg.seen, hl]
  | cons l' ls ih =>
      obtain ⟨s₁, h₁, h₂⟩ := Option.bind_eq_some_iff.mp h
      have hl : s.step I prog l' = some s₁ := h₁
      rw [List.cons_append, Cfg.seen, Cfg.seen, hl, Option.elim_some, Option.elim_some, ih h₂,
        List.append_assoc]

/-- A run whose labels meet a condition. -/
theorem Cfg.runBy_of_run {C : Cfg τ δ Op R Call Ret → Label Ans Ev Call → Prop}
    {ls : List (Label Ans Ev Call)} {s s' : Cfg τ δ Op R Call Ret}
    (hC : ∀ l ∈ ls, ∀ s, C s l) (h : Cfg.run I prog ls s = some s') :
    Cfg.RunBy I prog C s ls s' := by
  induction ls using List.reverseRecOn generalizing s' with
  | nil =>
      cases h
      exact .nil
  | append_singleton ls l ih =>
      rw [Cfg.run_append] at h
      obtain ⟨s₁, h₁, h₂⟩ := Option.bind_eq_some_iff.mp h
      obtain ⟨s₂, hs, e⟩ := Option.bind_eq_some_iff.mp h₂
      cases e
      have hprefix := ih (fun l' hl' => hC l' (List.mem_append_left _ hl')) h₁
      exact hprefix.snoc l (hC l (by simp) s₁) hs

end seen

/-! ### Objects -/

/-- What concurrent calls do to an abstract state. -/
structure Object (Call : Type) (Ret : Call → Type) (Shown : Type) where
  State : Type
  /-- How far a call has come. -/
  Local : Call → Type
  start : (c : Call) → Local c
  /-- An atomic move of a call. -/
  move : {c : Call} → State → Local c → State → Local c → Prop
  /-- The call can return the result. -/
  ends : {c : Call} → Local c → Ret c → Prop
  /-- What comes about between the moves, by what shows of it. -/
  env : Shown → State → State → Prop

namespace Object

variable {Call Shown : Type} {Ret : Call → Type} (O : Object Call Ret Shown)

/-- Moves of one call, one after another. -/
def Moves {c : Call} (a : O.State) (x : O.Local c) (a' : O.State) (x' : O.Local c) : Prop :=
  Relation.ReflTransGen (fun p q : O.State × O.Local c => O.move p.1 p.2 q.1 q.2) (a, x) (a', x')

/-- A configuration: the state, and the calls in progress. -/
structure Cfg where
  st : O.State
  thr : Nat → Option (Σ c, O.Local c)

variable {O}

theorem Moves.refl {c : Call} {a : O.State} {x : O.Local c} : O.Moves a x a x :=
  Relation.ReflTransGen.refl

theorem Moves.single {c : Call} {a a' : O.State} {x x' : O.Local c} (h : O.move a x a' x') :
    O.Moves a x a' x' :=
  Relation.ReflTransGen.single h

theorem Moves.trans {c : Call} {a a' a'' : O.State} {x x' x'' : O.Local c} (h : O.Moves a x a' x')
    (h' : O.Moves a' x' a'' x'') : O.Moves a x a'' x'' :=
  Relation.ReflTransGen.trans h h'

variable (O)

/-- The runs of the object from the state `a₀`, by what is seen of them. -/
inductive Run (a₀ : O.State) : List (Event Call Ret Shown) → O.Cfg → Prop where
  | nil : Run a₀ [] ⟨a₀, fun _ => none⟩
  | call {es : List (Event Call Ret Shown)} {s : O.Cfg} {t : Nat} (c : Call) : Run a₀ es s →
      s.thr t = none →
      Run a₀ (es ++ [.call t c]) { s with thr := Function.update s.thr t (some ⟨c, O.start c⟩) }
  | move {es : List (Event Call Ret Shown)} {s : O.Cfg} {t : Nat} {c : Call} {x x' : O.Local c}
      {a : O.State} : Run a₀ es s → s.thr t = some ⟨c, x⟩ → O.move s.st x a x' →
      Run a₀ es ⟨a, Function.update s.thr t (some ⟨c, x'⟩)⟩
  | ret {es : List (Event Call Ret Shown)} {s : O.Cfg} {t : Nat} {c : Call} {x : O.Local c}
      {r : Ret c} : Run a₀ es s → s.thr t = some ⟨c, x⟩ → O.ends x r →
      Run a₀ (es ++ [.ret t c r]) { s with thr := Function.update s.thr t none }
  | env {es : List (Event Call Ret Shown)} {s : O.Cfg} {a : O.State} {o : Shown} : Run a₀ es s →
      O.env o s.st a → Run a₀ (es ++ [.env o]) { s with st := a }

variable {O} {a₀ : O.State} {es : List (Event Call Ret Shown)} {s : O.Cfg}

/-- A call of a run moves on. -/
theorem Run.moves (h : O.Run a₀ es s) {t : Nat} {c : Call} {x x' : O.Local c} {a : O.State}
    (ht : s.thr t = some ⟨c, x⟩) (hm : O.Moves s.st x a x') :
    O.Run a₀ es ⟨a, Function.update s.thr t (some ⟨c, x'⟩)⟩ := by
  have hrun : ∀ b : O.State × O.Local c,
      Relation.ReflTransGen (fun p q : O.State × O.Local c => O.move p.1 p.2 q.1 q.2) (s.st, x) b →
      O.Run a₀ es ⟨b.1, Function.update s.thr t (some ⟨c, b.2⟩)⟩ := by
    intro b hb
    induction hb with
    | refl =>
        have hself : Function.update s.thr t (some ⟨c, x⟩) = s.thr := by
          rw [← ht, Function.update_eq_self]
        rwa [hself]
    | tail _ hmove ih =>
        have hnext := ih.move (Function.update_self ..) hmove
        rwa [Function.update_idem] at hnext
  exact hrun _ hm

end Object

/-! ### Stretches of a program -/

variable {τ δ β Op : Type} {R : Op → Type} {Ans Ev Call Shown : Type} {Ret : Call → Type}
  {I : Iface τ δ Op R Ans Ev}

theorem Lock.not_noWriter {l : Lock} {t : Nat} (h : l.held t = .wr) : ¬ l.NoWriter := by
  cases l with
  | reading rs => simp only [held] at h; split at h <;> cases h
  | writing u => exact id

/-- The first part of a straight program is straight. -/
theorem LProg.Straight.left {A : Op → Prop} {α γ : Type} {p : LProg Op R α}
    {f : α → LProg Op R γ} (h : (p >>= f).Straight A) : p.Straight A := by
  induction p with
  | ret x => trivial
  | call c k ih => exact ⟨h.1, fun r => ih r (h.2 r)⟩
  | loop body k => exact h.elim

/-- What is left of a critical section: the body, then the thread lets go of the lock. -/
def closing {α ρ : Type} (body : LProg Op R α) (f : α → ρ) : LProg Op R ρ :=
  body >>= fun x => do
    LProg.unlock
    pure (f x)

/-- The program neither takes the lock nor lets go of it, nor repeats. -/
def LProg.Apart {α : Type} (p : LProg Op R α) : Prop := Prog.Straight (fun c => ∃ o, c = .op o) p

/-- Between taking the lock and letting go of it: a writer does neither. -/
def Logic.unbroken (allows : Ans → Prop) : Setting τ β Ans :=
  { (Logic.shared (fun _ => True) (fun _ _ _ => True) : Setting τ β Ans) with
    allows := allows
    rel := fun _ => False }

/-! ### What the programs must meet -/

/-- How the guarded state stands for a state of the object: by a world, which the unguarded state
completes. -/
structure Abstraction (L : Logic I β) (O : Object Call Ret Shown) where
  World : Type
  Is : τ → World → Prop
  Ok : World → Prop
  abs : World → δ → O.State
  /-- The operation leaves the state of the object as it is. -/
  quiet : Op → Prop
  /-- What shows of a step of the environment. -/
  shows : δ → Ev → Option Shown
  env_shown : ∀ {w e T d d' o}, Ok w → L.Inv T d → I.env e T d = some d' → shows d e = some o →
    O.env o (abs w d) (abs w d')
  env_hidden : ∀ {w e T d d'}, I.env e T d = some d' → shows d e = none → abs w d' = abs w d
  quiet_abs : ∀ {w t o a T d r T' d'}, quiet o → I.act t o a T d = some (r, T', d') →
    abs w d' = abs w d
  none_quiet : ∀ {t o T d}, I.valid t .none o T d → quiet o

namespace Abstraction

variable {L : Logic I β} {O : Object Call Ret Shown} (M : Abstraction L O) (allows : Ans → Prop)

/-- Whatever the unguarded state, the call can move on and return `r`, and the world with it. -/
def Yields (T : τ) (w : M.World) {c : Call} (x : O.Local c) (r : Ret c) : Prop :=
  ∀ d, L.Inv T d → ∃ y, O.Moves (M.abs w d) x (M.abs w d) y ∧ O.ends y r

/-- The condition of a reader's call, where the guarded state is `T`: an operation is moves. -/
def reads (T : τ) (w : M.World) {c : Call} :
    (k : LockCall Op) → O.Local c → (k.Res R → O.Local c → Prop) → Prop
  | .op o,   x, Φ => ∀ t a d r T' d', allows a → L.Inv T d → I.valid t .rd o T d →
      I.act t o a T d = some (r, T', d') →
      ∃ x', O.Moves (M.abs w d) x (M.abs w d') x' ∧ Φ r x'
  | .rdlock, _, _ => False
  | .wrlock, _, _ => False
  | .unlock, _, _ => False

/-- A reader's section. -/
def Reads (c : Call) {α : Type} (body : LProg Op R α) (f : α → Ret c) : Prop :=
  ∀ w T d, M.Ok w → M.Is T w → L.Inv T d →
    body.wp (M.reads allows T w) (O.start c) fun v x => M.Yields T w x (f v)

/-- A writer has come to a world from which its call returns `r`, in one go. -/
def Wrote (w : M.World) (c : Call) (r : Ret c) (m : Mode τ β) : Prop :=
  ∃ w', M.Is m.sh w' ∧ M.Ok w' ∧ ∀ d, L.Inv m.sh d → L.sees m.view d →
    ∃ x, O.Moves (M.abs w d) (O.start c) (M.abs w' d) x ∧ O.ends x r

/-- A writer's section. -/
structure Writes (c : Call) {α : Type} (body : LProg Op R α) (f : α → Ret c) : Prop where
  safe : ∀ w T t d, M.Ok w → M.Is T w → L.Inv T d → ∃ b, L.own t b d ∧ L.sees b d ∧
    L.Safe (Logic.unbroken allows) body ⟨.wr, T, b⟩ fun v m => M.Wrote w c (f v) m
  quiet : body.Straight M.quiet

/-- The call returns, or is one critical section. -/
inductive Enters (c : Call) : LProg Op R (Ret c) → Prop where
  | ret {r : Ret c} (h : ∀ w T, M.Ok w → M.Yields T w (O.start c) r) : Enters c (.ret r)
  | writing {α : Type} {body : LProg Op R α} {f : α → Ret c} (h : M.Writes allows c body f) :
      Enters c (LProg.wrlock >>= fun _ => closing body f)
  | reading {α : Type} {body : LProg Op R α} {f : α → Ret c} (h : M.Reads allows c body f) :
      Enters c (LProg.rdlock >>= fun _ => closing body f)

/-- The call works apart from the lock, and then enters. -/
def Works (start : β → Prop) (c : Call) (p : LProg Op R (Ret c)) : Prop :=
  ∃ (γ : Type) (q : LProg Op R γ) (g : γ → LProg Op R (Ret c)), p = q >>= g ∧ q.Apart ∧
    ∀ T b, start b → L.Safe (Logic.unbroken allows) q ⟨.none, T, b⟩ fun v _ =>
      M.Enters allows c (g v)

end Abstraction

/-- The programs are calls of the object. -/
def Atomic {L : Logic I β} {O : Object Call Ret Shown} {prog : (c : Call) → LProg Op R (Ret c)}
    (P : Logic.Sharing L prog) (M : Abstraction L O) (allows : Ans → Prop) : Prop :=
  ∀ c, M.Works allows P.start c (prog c)

namespace Abstraction

open Logic (Fits Safe)

variable {L : Logic I β} {O : Object Call Ret Shown} {M : Abstraction L O} {allows : Ans → Prop}

theorem reads_mono (T : τ) (w : M.World) (c : Call) :
    Prog.Mono (M.reads allows T w : (k : LockCall Op) → O.Local c → _) := by
  intro k x Φ Ψ hΦ h
  cases k with
  | rdlock => exact h
  | wrlock => exact h
  | unlock => exact h
  | op o =>
      intro t a d r T' d' ha hi hv hact
      obtain ⟨x', hmoves, hx⟩ := h t a d r T' d' ha hi hv hact
      exact ⟨x', hmoves, hΦ _ _ hx⟩

/-! ### Where a call has come to -/

/-- Where a call of thread `t` has come to, in the program and in the object. -/
inductive Position (M : Abstraction L O) (allows : Ans → Prop) (t : Nat) (l : Lock) (T : τ) (d : δ)
    (w : M.World) {c : Call} (rest : LProg Op R (Ret c)) (x : O.Local c) : Prop where
  | apart {γ : Type} (q : LProg Op R γ) (g : γ → LProg Op R (Ret c)) (m : Mode τ β)
      (hrest : rest = q >>= g) (hx : x = O.start c) (hl : l.held t = .none) (hq : q.Apart)
      (hm : L.Fits (Logic.unbroken allows) m t l T d)
      (hs : L.Safe (Logic.unbroken allows) q m fun v _ => M.Enters allows c (g v))
  | writing {α : Type} (body : LProg Op R α) (f : α → Ret c) (m : Mode τ β)
      (hrest : rest = closing body f) (hx : x = O.start c) (hl : l.held t = .wr)
      (hq : body.Straight M.quiet) (hm : L.Fits (Logic.unbroken allows) m t l T d)
      (hs : L.Safe (Logic.unbroken allows) body m fun v m' => M.Wrote w c (f v) m')
  | reading {α : Type} (body : LProg Op R α) (f : α → Ret c) (hrest : rest = closing body f)
      (hl : l.held t = .rd)
      (hs : body.wp (M.reads allows T w) x fun v y => M.Yields T w y (f v))
  | ended (r : Ret c) (hrest : rest = .ret r) (hl : l.held t = .none) (hx : O.ends x r)

/-- A step that is none of its thread's leaves a call where it is. -/
theorem Position.keep {t : Nat} {l l' : Lock} {T T' : τ} {d d' : δ} {w w' : M.World} {c : Call}
    {rest : LProg Op R (Ret c)} {x : O.Local c} (h : M.Position allows t l T d w rest x)
    (hl : l'.held t = l.held t)
    (hfit : ∀ m, L.Fits (Logic.unbroken allows) m t l T d →
      L.Fits (Logic.unbroken allows) m t l' T' d')
    (hw : l.held t ≠ .none → w' = w) (hT : l.held t = .rd → T' = T) :
    M.Position allows t l' T' d' w' rest x := by
  cases h with
  | apart q g m hrest hx hn hq hm hs =>
      exact .apart q g m hrest hx (hl.trans hn) hq (hfit m hm) hs
  | writing body f m hrest hx hn hq hm hs =>
      obtain rfl := hw (by rw [hn]; exact Held.noConfusion)
      exact .writing body f m hrest hx (hl.trans hn) hq (hfit m hm) hs
  | reading body f hrest hn hs =>
      obtain rfl := hw (by rw [hn]; exact Held.noConfusion)
      obtain rfl := hT hn
      exact .reading body f hrest (hl.trans hn) hs
  | ended r hrest hn hx => exact .ended r hrest (hl.trans hn) hx

/-- What a step of a call leads to: moves of the object to where the call has come then. -/
def Onward (M : Abstraction L O) (allows : Ans → Prop) (t : Nat) (l : Lock) (d : δ) (w : M.World)
    {c : Call} (x : O.Local c) (rest : LProg Op R (Ret c)) (l' : Lock) (T' : τ) (d' : δ) : Prop :=
  ∃ w' x', O.Moves (M.abs w d) x (M.abs w' d') x' ∧ M.Position allows t l' T' d' w' rest x' ∧
    M.Ok w' ∧ (l'.NoWriter → M.Is T' w') ∧ (l.held t ≠ .wr → w' = w)

section step

variable {t : Nat} {a : Ans} {l l' : Lock} {T T' : τ} {d d' : δ} {w : M.World} {c : Call}
  {rest : LProg Op R (Ret c)}

/-- A call enters its critical section. -/
theorem Enters.step {p : LProg Op R (Ret c)} (h : M.Enters allows c p) (hi : L.Inv T d)
    (hw : M.Ok w) (his : l.NoWriter → M.Is T w)
    (hs : headStep I t a p l T d = some (rest, l', T', d')) :
    M.Onward allows t l d w (O.start c) rest l' T' d' := by
  cases h with
  | ret h => cases hs
  | writing h =>
      obtain ⟨l₁, hl₁, e⟩ := Option.map_eq_some_iff.mp hs
      cases e
      obtain ⟨hn, hwr, -, -⟩ := Lock.wrlock_spec hl₁
      obtain ⟨b, ho, hb, hsafe⟩ := h.safe w T t d hw (his hn) hi
      refine ⟨w, O.start c, .refl, ?_, hw, fun hn' => absurd hn' (Lock.not_noWriter hwr),
        fun _ => rfl⟩
      exact .writing _ _ _ rfl rfl hwr h.quiet (Fits.intro hwr.symm rfl ho fun _ => hb) hsafe
  | reading h =>
      obtain ⟨l₁, hl₁, e⟩ := Option.map_eq_some_iff.mp hs
      cases e
      obtain ⟨hn, -, hrd, -⟩ := Lock.rdlock_spec hl₁
      refine ⟨w, O.start c, .refl, ?_, hw, fun _ => his hn, fun _ => rfl⟩
      exact .reading _ _ rfl hrd (h w T d hw (his hn) hi)

/-- A call moves on apart from the lock. -/
theorem apart_step {prog : (c : Call) → LProg Op R (Ret c)} (P : Logic.Sharing L prog) {γ : Type}
    {q : LProg Op R γ} {g : γ → LProg Op R (Ret c)} {m : Mode τ β} (hq : q.Apart)
    (hm : L.Fits (Logic.unbroken allows) m t l T d)
    (hsafe : L.Safe (Logic.unbroken allows) q m fun v _ => M.Enters allows c (g v))
    (hi : L.Inv T d) (hw : M.Ok w) (his : l.NoWriter → M.Is T w) (hl : l.held t = .none)
    (hok : allows a) (hs : headStep I t a (q >>= g) l T d = some (rest, l', T', d')) :
    M.Onward allows t l d w (O.start c) rest l' T' d' := by
  rcases headStep_of_bind hs with ⟨v, rfl⟩ | ⟨q', hstep, rfl⟩
  · have henters : M.Enters allows c (g v) := hsafe
    exact henters.step hi hw his hs
  obtain ⟨-, ⟨m', hm', hsafe'⟩, -⟩ := hsafe.headStep hm hi hok
    (fun m₁ _ _ ho _ _ => (P.henter hi ho).imp fun b hb => ⟨⟨trivial, trivial⟩, hb.2⟩) hstep
  cases q with
  | ret v => cases hstep
  | loop body k => exact hq.elim
  | call k next =>
      obtain ⟨⟨o, rfl⟩, hnext⟩ := hq
      have hval : I.valid t .none o T d := hl ▸ Safe.valid hsafe hm hi
      obtain ⟨y, hact, e⟩ := Option.map_eq_some_iff.mp hstep
      cases e
      obtain ⟨hT, -⟩ := L.none_frame hval hact
      refine ⟨w, O.start c, ?_, ?_, hw, fun hn => hT ▸ his hn, fun _ => rfl⟩
      · rw [M.quiet_abs (M.none_quiet hval) hact]
        exact .refl
      · exact .apart _ g m' rfl rfl hl (hnext _) hm' hsafe'

/-- A writer moves on, or lets go of the lock. -/
theorem writing_step {prog : (c : Call) → LProg Op R (Ret c)} (P : Logic.Sharing L prog) {α : Type}
    {body : LProg Op R α} {f : α → Ret c} {m : Mode τ β} (hq : body.Straight M.quiet)
    (hm : L.Fits (Logic.unbroken allows) m t l T d)
    (hsafe : L.Safe (Logic.unbroken allows) body m fun v m' => M.Wrote w c (f v) m')
    (hi : L.Inv T d) (hw : M.Ok w) (hl : l.held t = .wr) (hok : allows a)
    (hs : headStep I t a (closing body f) l T d = some (rest, l', T', d')) :
    M.Onward allows t l d w (O.start c) rest l' T' d' := by
  rcases headStep_of_bind hs with ⟨v, rfl⟩ | ⟨body', hstep, rfl⟩
  · obtain ⟨m₁, hd, hh, rfl, ho, hv⟩ := hm
    have hheld : m.held = .wr := hd.1.symm.trans (hh.trans hl)
    obtain rfl := (Logic.unbroken allows).drift_locked hd (by rw [hheld]; exact Held.noConfusion)
    obtain ⟨w', his', hw', hmove⟩ := hsafe
    obtain ⟨x, hmoves, hx⟩ := hmove d hi (hv (Or.inl hheld))
    cases hs
    have hn : l.held t ≠ .none := by rw [hl]; exact Held.noConfusion
    exact ⟨w', x, hmoves, .ended (f v) rfl (Lock.unlock_spec hn).1 hx, hw', fun _ => his',
      fun h => absurd hl h⟩
  · obtain ⟨-, ⟨m', hm', hsafe'⟩, hrel⟩ := hsafe.headStep hm hi hok
      (fun m₁ _ _ ho _ _ => (P.henter hi ho).imp fun b hb => ⟨⟨trivial, trivial⟩, hb.2⟩) hstep
    have hl' : l'.held t = .wr := by
      by_contra hne
      exact hrel hl hne
    obtain ⟨hq', hact⟩ := headStep_straight hq hstep
    refine ⟨w, O.start c, ?_, ?_, hw, fun hn => absurd hn (Lock.not_noWriter hl'), fun _ => rfl⟩
    · rcases hact with ⟨-, rfl⟩ | ⟨o, r, ho, ha⟩
      · exact .refl
      · rw [M.quiet_abs ho ha]
        exact .refl
    · exact .writing body' f m' rfl rfl hl' hq' hm' hsafe'

/-- A reader moves on, or lets go of the lock. -/
theorem reading_step {α : Type} {body : LProg Op R α} {f : α → Ret c} {x : O.Local c}
    (hwp : body.wp (M.reads allows T w) x fun v y => M.Yields T w y (f v))
    (hi : L.Inv T d) (hw : M.Ok w) (his : l.NoWriter → M.Is T w) (hl : l.held t = .rd)
    (hval : ∀ o k, body = .call (.op o) k → I.valid t .rd o T d) (hok : allows a)
    (hs : headStep I t a (closing body f) l T d = some (rest, l', T', d')) :
    M.Onward allows t l d w x rest l' T' d' := by
  have hn : l.NoWriter := Lock.noWriter_of_held hl
  rcases headStep_of_bind hs with ⟨v, rfl⟩ | ⟨body', hstep, rfl⟩
  · obtain ⟨y, hmoves, hy⟩ := hwp d hi
    cases hs
    have hheld : l.held t ≠ .none := by rw [hl]; exact Held.noConfusion
    exact ⟨w, y, hmoves, .ended (f v) rfl (Lock.unlock_spec hheld).1 hy, hw, fun _ => his hn,
      fun _ => rfl⟩
  · cases body with
    | ret v => cases hstep
    | loop round k =>
        cases hstep
        refine ⟨w, x, .refl, ?_, hw, fun _ => his hn, fun _ => rfl⟩
        exact .reading _ f rfl hl (Prog.wp_unroll (reads_mono T w c) hwp)
    | call k next =>
        cases k with
        | rdlock => exact hwp.elim
        | wrlock => exact hwp.elim
        | unlock => exact hwp.elim
        | op o =>
            obtain ⟨y, hact, e⟩ := Option.map_eq_some_iff.mp hstep
            cases e
            obtain rfl := L.rd_frame (hval o next rfl) hact
            obtain ⟨x', hmoves, hx'⟩ := hwp t a d _ _ _ hok hi (hval o next rfl) hact
            exact ⟨w, x', hmoves, .reading _ f rfl hl hx', hw, fun _ => his hn, fun _ => rfl⟩

/-- **A step of a call** is moves of the object. -/
theorem Position.step {prog : (c : Call) → LProg Op R (Ret c)} (P : Logic.Sharing L prog)
    {p : LProg Op R (Ret c)} {x : O.Local c} (h : M.Position allows t l T d w p x) (hi : L.Inv T d)
    (hw : M.Ok w) (his : l.NoWriter → M.Is T w)
    (hval : ∀ o k, p = .call (.op o) k → I.valid t (l.held t) o T d) (hok : allows a)
    (hs : headStep I t a p l T d = some (rest, l', T', d')) :
    M.Onward allows t l d w x rest l' T' d' := by
  cases h with
  | apart q g m hrest hx hl hq hm hsafe =>
      subst hrest hx
      exact apart_step P hq hm hsafe hi hw his hl hok hs
  | writing body f m hrest hx hl hq hm hsafe =>
      subst hrest hx
      exact writing_step P hq hm hsafe hi hw hl hok hs
  | reading body f hrest hl hwp =>
      subst hrest
      refine reading_step hwp hi hw his hl (fun o k e => ?_) hok hs
      subst e
      exact hl ▸ hval o _ rfl
  | ended r hrest hl hx =>
      subst hrest
      cases hs

end step

end Abstraction

/-! ### Every thread at once -/

section pool

variable {L : Logic I β} {O : Object Call Ret Shown} {prog : (c : Call) → LProg Op R (Ret c)}
  {P : Logic.Sharing L prog} {M : Abstraction L O} {allows : Ans → Prop}

/-- The answers of the step are of the allowed ones. -/
def Label.Answers (allows : Ans → Prop) : Label Ans Ev Call → Prop
  | .step _ a => allows a
  | _         => True

/-- The object's configuration is where the machine's calls have come to. -/
structure Mirrors (P : Logic.Sharing L prog) (M : Abstraction L O) (allows : Ans → Prop)
    (w : M.World) (s : Cfg τ δ Op R Call Ret) (a : O.Cfg) : Prop where
  good : Logic.Good P s
  ok : M.Ok w
  st : a.st = M.abs w s.fr
  is : s.lock.NoWriter → M.Is s.sh w
  idle : ∀ t, s.thr t = none → a.thr t = none
  busy : ∀ t task, s.thr t = some task → ∃ x, a.thr t = some ⟨task.call, x⟩ ∧
    M.Position allows t s.lock s.sh s.fr w task.rest x

variable {w : M.World} {s s' : Cfg τ δ Op R Call Ret} {a : O.Cfg} {a₀ : O.State}
  {es : List (Event Call Ret Shown)}

/-- A step of thread `t` leaves the others where they are. -/
theorem Mirrors.update (h : Mirrors P M allows w s a) {w' : M.World} {a' : O.Cfg} {t : Nat}
    (hgood : Logic.Good P s') (hw : M.Ok w') (hst : a'.st = M.abs w' s'.fr)
    (his : s'.lock.NoWriter → M.Is s'.sh w')
    (hthr : ∀ u, u ≠ t → s'.thr u = s.thr u ∧ a'.thr u = a.thr u)
    (hkeep : ∀ u, u ≠ t → ∀ {c : Call} {rest : LProg Op R (Ret c)} {x : O.Local c},
      M.Position allows u s.lock s.sh s.fr w rest x →
      M.Position allows u s'.lock s'.sh s'.fr w' rest x)
    (hidle : s'.thr t = none → a'.thr t = none)
    (hbusy : ∀ task, s'.thr t = some task → ∃ x, a'.thr t = some ⟨task.call, x⟩ ∧
      M.Position allows t s'.lock s'.sh s'.fr w' task.rest x) : Mirrors P M allows w' s' a' := by
  refine ⟨hgood, hw, hst, his, fun u hu => ?_, fun u task hu => ?_⟩
  · by_cases e : u = t
    · subst e
      exact hidle hu
    · rw [(hthr u e).2]
      exact h.idle u ((hthr u e).1.symm.trans hu)
  · by_cases e : u = t
    · subst e
      exact hbusy task hu
    · obtain ⟨x, hx, hpos⟩ := h.busy u task ((hthr u e).1.symm.trans hu)
      exact ⟨x, (hthr u e).2.trans hx, hkeep u e hpos⟩

/-- A run of the object, seen as `es`, comes to a configuration that mirrors the machine's. -/
def Goes (P : Logic.Sharing L prog) (M : Abstraction L O) (allows : Ans → Prop) (a₀ : O.State)
    (es : List (Event Call Ret Shown)) (s : Cfg τ δ Op R Call Ret) : Prop :=
  ∃ w a, O.Run a₀ es a ∧ Mirrors P M allows w s a

theorem Mirrors.start (h : Mirrors P M allows w s a) (hA : Atomic P M allows)
    (hrun : O.Run a₀ es a) {t : Nat} {c : Call} (hs : s.step I prog (.start t c) = some s') :
    Goes P M allows a₀ (es ++ [.call t c]) s' := by
  have hgood := h.good.step hs
  cases ht : s.thr t with
  | some task => simp [Cfg.step, ht] at hs
  | none =>
      simp only [Cfg.step, ht, Option.some.injEq] at hs
      subst hs
      refine ⟨w, _, hrun.call c (h.idle t ht), h.update (t := t) hgood h.ok h.st h.is
        (fun u hu => ⟨Function.update_of_ne hu _ _, Function.update_of_ne hu _ _⟩)
        (fun u _ _ _ _ hpos => hpos) (fun hu => ?_) fun task hu => ?_⟩
      · simp at hu
      · obtain rfl : (⟨c, prog c⟩ : Task Op R Call Ret) = task := by simpa using hu
        obtain ⟨hn, b, hb, ho⟩ := h.good.idle t ht
        obtain ⟨γ, q, g, hprog, hq, hsafe⟩ := hA c
        refine ⟨O.start c, Function.update_self .., ?_⟩
        refine .apart q g ⟨.none, s.sh, b⟩ hprog rfl hn hq (Logic.Fits.intro hn.symm rfl ho ?_)
          (hsafe s.sh b hb)
        rintro (e | e) <;> cases e

/-- A call whose program has come to its value can return it. -/
theorem Abstraction.Position.returns {t : Nat} {l : Lock} {T : τ} {d : δ} {c : Call} {r : Ret c}
    {x : O.Local c} (h : M.Position allows t l T d w (.ret r) x) (hw : M.Ok w) (hi : L.Inv T d) :
    ∃ y, O.Moves (M.abs w d) x (M.abs w d) y ∧ O.ends y r := by
  cases h with
  | apart q g m hrest hx _ _ _ hsafe =>
      cases q with
      | call k next => cases hrest
      | loop body k => cases hrest
      | ret v =>
          -- a call that never took the lock has its move still to take
          have henters : M.Enters allows c (g v) := hsafe
          rw [show g v = .ret r from hrest.symm] at henters
          cases henters with
          | ret hyields =>
              subst hx
              exact hyields w T hw d hi
  | writing body f m hrest => cases body <;> cases hrest
  | reading body f hrest => cases body <;> cases hrest
  | ended r' hrest _ hends =>
      cases hrest
      exact ⟨x, .refl, hends⟩

theorem Mirrors.finish (h : Mirrors P M allows w s a) (hrun : O.Run a₀ es a) {t : Nat}
    (hs : s.step I prog (.finish t) = some s') :
    Goes P M allows a₀ (es ++ ((Label.finish t : Label Ans Ev Call).event M.shows s).toList) s' := by
  have hgood := h.good.step hs
  cases ht : s.thr t with
  | none => simp [Cfg.step, ht] at hs
  | some task =>
      obtain ⟨c, rest⟩ := task
      cases rest with
      | call _ _ => simp [Cfg.step, ht] at hs
      | loop _ _ => simp [Cfg.step, ht] at hs
      | ret r =>
          simp only [Cfg.step, ht, Option.some.injEq] at hs
          subst hs
          obtain ⟨x, hx, hpos⟩ := h.busy t _ ht
          obtain ⟨y, hmoves, hy⟩ := hpos.returns h.ok h.good.inv
          rw [← h.st] at hmoves
          have hret := (hrun.moves hx hmoves).ret (Function.update_self ..) hy
          rw [Label.event, ht]
          rw [Function.update_idem] at hret
          refine ⟨w, _, hret, h.update (t := t) hgood h.ok h.st h.is
            (fun u hu => ⟨Function.update_of_ne hu _ _, Function.update_of_ne hu _ _⟩)
            (fun u _ _ _ _ hpos => hpos) (fun _ => Function.update_self ..) fun task hu => ?_⟩
          simp at hu

theorem Mirrors.env (h : Mirrors P M allows w s a) (hrun : O.Run a₀ es a) {e : Ev}
    (hs : s.step I prog (.env e) = some s') :
    Goes P M allows a₀ (es ++ ((Label.env e : Label Ans Ev Call).event M.shows s).toList) s' := by
  have hgood := h.good.step hs
  obtain ⟨d, hd, rfl⟩ := Option.map_eq_some_iff.mp hs
  have hkeep : ∀ t task, s.thr t = some task → ∃ x, a.thr t = some ⟨task.call, x⟩ ∧
      M.Position allows t s.lock s.sh d w task.rest x := by
    intro t task ht
    obtain ⟨x, hx, hpos⟩ := h.busy t task ht
    exact ⟨x, hx, hpos.keep rfl (fun m hm => hm.env h.good.inv hd) (fun _ => rfl) fun _ => rfl⟩
  rw [Label.event]
  cases ho : M.shows s.fr e with
  | none =>
      have hst : a.st = M.abs w d := h.st.trans (M.env_hidden hd ho).symm
      rw [Option.map_none, Option.toList_none, List.append_nil]
      exact ⟨w, a, hrun, hgood, h.ok, hst, h.is, h.idle, hkeep⟩
  | some o =>
      have henv : O.env o a.st (M.abs w d) := h.st ▸ M.env_shown h.ok h.good.inv hd ho
      exact ⟨w, _, hrun.env henv, hgood, h.ok, rfl, h.is, h.idle, hkeep⟩

theorem Mirrors.act (h : Mirrors P M allows w s a) (hrun : O.Run a₀ es a) {t : Nat} {ans : Ans}
    (hok : allows ans) (hs : s.step I prog (.step t ans) = some s') :
    Goes P M allows a₀ es s' := by
  have hgood := h.good.step hs
  cases ht : s.thr t with
  | none => simp [Cfg.step, ht] at hs
  | some task =>
      obtain ⟨c, p⟩ := task
      have hstep := hs
      simp only [Cfg.step, ht] at hs
      obtain ⟨⟨p', l', T', d'⟩, hr, rfl⟩ := Option.map_eq_some_iff.mp hs
      obtain ⟨x, hx, hpos⟩ := h.busy t _ ht
      have hval : ∀ o k, p = .call (.op o) k → I.valid t (s.lock.held t) o s.sh s.fr := by
        rintro o k rfl
        exact h.good.valid ht
      obtain ⟨w', x', hmoves, hpos', hw', his', hsame⟩ :=
        hpos.step P h.good.inv h.ok h.is hval hok hr
      obtain ⟨m, hm, hp⟩ := h.good.busy t _ ht
      obtain ⟨hoth, -⟩ := hp.headStep_other hm h.good.inv hr
      refine ⟨w', _, hrun.moves hx (h.st ▸ hmoves), h.update (t := t) hgood hw' rfl his'
        (fun u hu => ⟨Function.update_of_ne hu _ _, Function.update_of_ne hu _ _⟩)
        (fun u hu _ _ _ hposu => ?_) (fun hu => ?_) fun task hu => ?_⟩
      · refine hposu.keep (hoth u hu).1 (hoth u hu).2.1 (fun hn => hsame fun hwr => ?_) fun hrd => ?_
        · exact hn (Lock.held_of_wr hwr hu)
        · exact (h.good.step_other hstep fun e => hu (Option.some.inj e).symm).2.2 hrd
      · simp at hu
      · obtain rfl : (⟨c, p'⟩ : Task Op R Call Ret) = task := by simpa using hu
        exact ⟨x', Function.update_self .., hpos'⟩

/-- **Critical sections are atomic.**  What is seen of a run of the machine is seen of a run of the
object, which comes to where the machine's calls have come. -/
theorem Atomic.refines (hA : Atomic P M allows) {T : τ} {d : δ}
    (hgood : Logic.Good P (Cfg.init T d : Cfg τ δ Op R Call Ret)) (hw : M.Ok w) (his : M.Is T w)
    {ls : List (Label Ans Ev Call)}
    (h : Cfg.RunBy I prog (fun _ l => l.Answers allows) (Cfg.init T d) ls s) :
    Goes P M allows (M.abs w d) (Cfg.seen I prog M.shows ls (Cfg.init T d)) s := by
  induction h with
  | nil =>
      exact ⟨w, _, .nil, hgood, hw, rfl, fun _ => his, fun _ _ => rfl, fun t task ht => by cases ht⟩
  | @snoc ls s₁ s₂ l hrun hl hs ih =>
      obtain ⟨w₁, a, hobj, hmirrors⟩ := ih
      rw [Cfg.seen_snoc hrun.run]
      cases l with
      | start t c => exact hmirrors.start hA hobj hs
      | finish t => exact hmirrors.finish hobj hs
      | env e => exact hmirrors.env hobj hs
      | step t ans =>
          have hnext := hmirrors.act hobj hl hs
          simpa [Label.event] using hnext

end pool

end Conc
