import TrigEmitKafka.Support.LockLogic

/-!
# Support — a reader whose questions are answered from a stream

Some operations ask something of the world outside (`asks`), and a stream says what they are told.
While a thread holds the lock for reading, nothing it loads changes, so with the stream its steps
are determined: `advance` is the next one, where `look` is what an operation then returns, and
`Leads` says that a program comes to a value.

`Told` is a lone run whose questions are answered from the stream, and `solo_after` takes it along
those steps.  `Fed` is a run of every thread in which the questions of one are answered from the stream;
`LetsGo` says that this thread stops holding the lock within a bounded number of its own steps,
whatever the others do.  `letsGo_of_leads` and `not_letsGo` decide which, from the steps alone.
-/

namespace Conc

/-! ### Steps that are determined -/

section after

variable {σ : Type _} {step : σ → Option σ}

/-- `n` steps. -/
def after (step : σ → Option σ) : Nat → σ → Option σ
  | 0,     x => some x
  | n + 1, x => (step x).bind (after step n)

@[simp] theorem after_zero (x : σ) : after step 0 x = some x := rfl

theorem after_add (m n : Nat) (x : σ) : after step (m + n) x = (after step m x).bind (after step n) := by
  induction m generalizing x with
  | zero => rw [Nat.zero_add]; rfl
  | succ m ih =>
      rw [Nat.succ_add]
      show (step x).bind (after step (m + n)) = ((step x).bind (after step m)).bind (after step n)
      cases step x with
      | none => rfl
      | some y => exact ih y

/-- What `n + 1` steps lead to, one step leads to from what `n` lead to. -/
theorem after_succ (n : Nat) (x : σ) : after step (n + 1) x = (after step n x).bind step := by
  rw [after_add]
  cases after step n x with
  | none => rfl
  | some y =>
      show (step y).bind (after step 0) = step y
      cases step y <;> rfl

theorem after_isSome_of_le {m n : Nat} {x : σ} (h : m ≤ n) (hn : (after step n x).isSome) :
    (after step m x).isSome := by
  obtain ⟨i, rfl⟩ := Nat.exists_eq_add_of_le h
  rw [after_add] at hn
  exact Option.isSome_of_isSome_bind hn

/-- Where every state of `I` leads on to another, steps never end. -/
theorem after_of_progress {I : σ → Prop}
    (h : ∀ x, I x → ∃ n y, 0 < n ∧ after step n x = some y ∧ I y) (n : Nat) (x : σ) (hx : I x) :
    (after step n x).isSome := by
  induction n using Nat.strong_induction_on generalizing x with
  | _ n ih =>
      obtain ⟨m, y, hm, hy, hI⟩ := h x hx
      rcases Nat.lt_or_ge n m with hlt | hge
      · exact after_isSome_of_le hlt.le (Option.isSome_iff_exists.mpr ⟨y, hy⟩)
      · obtain ⟨i, rfl⟩ := Nat.exists_eq_add_of_le hge
        rw [after_add, hy]
        exact ih i (by omega) y hI

end after

section stream

variable {τ δ β Op : Type} {R : Op → Type} {Ans Ev : Type} {α γ : Type}
variable (asks : Op → Bool) (look : Nat → (o : Op) → Option (R o))

/-- The next step of a reader that has asked `k` times. -/
def advance : LProg Op R α × Nat → Option (LProg Op R α × Nat)
  | (.call (.op o) q, k) => (look k o).map fun r => (q r, if asks o then k + 1 else k)
  | (.loop body q, k)    => some (Prog.unroll body q, k)
  | _                    => none

/-- The program comes to `x`, asking from the `k`-th to the `k'`-th time. -/
def Leads (p : LProg Op R α) (k : Nat) (x : α) (k' : Nat) : Prop :=
  ∀ (γ : Type) (f : α → LProg Op R γ), ∃ n, after (advance asks look) n (p >>= f, k) = some (f x, k')

variable {asks look}

theorem after_op {o : Op} {k : Nat} {r : R o} (h : look k o = some r) (n : Nat)
    (q : R o → LProg Op R α) :
    after (advance asks look) (n + 1) (.call (.op o) q, k) =
      after (advance asks look) n (q r, if asks o then k + 1 else k) := by
  rw [after, advance, h]
  rfl

theorem Leads.pure {x : α} {k : Nat} : Leads asks look (Pure.pure x : LProg Op R α) k x k :=
  fun _ _ => ⟨0, rfl⟩

theorem Leads.op {o : Op} {k : Nat} {r : R o} (h : look k o = some r) :
    Leads asks look (LProg.op o) k r (if asks o then k + 1 else k) := by
  exact fun γ f => ⟨1, after_op h 0 f⟩

theorem Leads.bind {p : LProg Op R α} {f : α → LProg Op R γ} {k k' k'' : Nat} {x : α} {y : γ}
    (hp : Leads asks look p k x k') (hf : Leads asks look (f x) k' y k'') :
    Leads asks look (p >>= f) k y k'' := by
  intro γ g
  obtain ⟨n, hn⟩ := hp γ fun a => f a >>= g
  obtain ⟨n', hn'⟩ := hf γ g
  refine ⟨n + n', ?_⟩
  rw [after_add, Prog.bind_assoc, hn]
  exact hn'

/-- What a loop does with what a round returned. -/
def LProg.onward (body : LProg Op R (Option γ)) (q : γ → LProg Op R α) : Option γ → LProg Op R α
  | none   => .loop body q
  | some x => q x

/-- One round of a loop that yields nothing, and the loop again. -/
theorem after_round {body : LProg Op R (Option γ)} {q : γ → LProg Op R α} {k k' : Nat}
    (h : Leads asks look body k none k') :
    ∃ n, 0 < n ∧ after (advance asks look) n (.loop body q, k) = some (.loop body q, k') := by
  obtain ⟨n, hn⟩ := h α (LProg.onward body q)
  exact ⟨n + 1, Nat.succ_pos n, hn⟩

theorem Leads.again {body : LProg Op R (Option γ)} {q : γ → LProg Op R α} {k k' k'' : Nat} {y : α}
    (hb : Leads asks look body k none k') (h : Leads asks look (.loop body q) k' y k'') :
    Leads asks look (.loop body q) k y k'' := by
  intro ζ f
  obtain ⟨n, -, hn⟩ := after_round (q := fun x => q x >>= f) hb
  obtain ⟨n', hn'⟩ := h ζ f
  refine ⟨n + n', ?_⟩
  rw [after_add]
  exact (congrArg (Option.bind · _) hn).trans hn'

theorem Leads.done {body : LProg Op R (Option γ)} {q : γ → LProg Op R α} {k k' k'' : Nat} {x : γ}
    {y : α} (hb : Leads asks look body k (some x) k') (h : Leads asks look (q x) k' y k'') :
    Leads asks look (.loop body q) k y k'' := by
  intro ζ f
  obtain ⟨n, hn⟩ := hb ζ (LProg.onward body fun x => q x >>= f)
  obtain ⟨n', hn'⟩ := h ζ f
  refine ⟨(n + 1) + n', ?_⟩
  rw [after_add]
  exact (congrArg (Option.bind · _) hn).trans hn'

variable (asks) in
/-- The head operation asks. -/
def LProg.asking : LProg Op R α → Bool
  | .call (.op o) _ => asks o
  | _               => false

variable (I : Iface τ δ Op R Ans Ev)

variable (asks look) in
/-- While the guarded state is `T`, what an operation returns is known, and it can always be
answered. -/
structure Settled (σ : Nat → Ans) (T : τ) : Prop where
  act : ∀ {k o r t a d r' T' d'}, look k o = some r → (asks o = true → a = σ k) →
    I.act t o a T d = some (r', T', d') → r' = r ∧ T' = T
  ready : ∀ {k o r} t d, look k o = some r →
    ∃ a, (asks o = true → a = σ k) ∧ (I.act t o a T d).isSome

/-! ### One program alone -/

variable (asks) in
/-- The items answer what a lone run asks by `σ`, from the `k`-th time on. -/
def Told (t : Nat) (σ : Nat → Ans) : Nat → List (Item Ans Ev) → Solo τ δ Op R α → Prop
  | _, [],           _ => True
  | k, .env e :: is, s => ∀ s', s.step I t (.env e) = some s' → Told t σ k is s'
  | k, .ans a :: is, s => (s.rest.asking asks = true → a = σ k) ∧
      ∀ s', s.step I t (.ans a) = some s' →
        Told t σ (if s.rest.asking asks then k + 1 else k) is s'

variable {I}

/-- A program that never asks is told nothing wrong. -/
theorem told_of_straight {t : Nat} {σ : Nat → Ans} {k : Nat} {is : List (Item Ans Ev)}
    {s : Solo τ δ Op R α} (h : s.rest.Straight fun o => asks o = false) : Told asks I t σ k is s := by
  induction is generalizing s k with
  | nil => trivial
  | cons i is ih =>
      cases i with
      | env e =>
          intro s' hs
          obtain ⟨d, -, rfl⟩ := Option.map_eq_some_iff.mp hs
          exact ih h
      | ans a =>
          obtain ⟨rest, l, T, d⟩ := s
          refine ⟨fun hask => ?_, fun s' hs => ?_⟩
          · cases rest with
            | ret x => cases hask
            | loop body q => cases hask
            | call c q =>
                cases c with
                | op o => exact absurd (hask.symm.trans h.1) (by decide)
                | _ => cases hask
          · obtain ⟨⟨p', l', T', d'⟩, hstep, rfl⟩ := Option.map_eq_some_iff.mp hs
            exact ih (headStep_straight h hstep).1

/-- Steps that are determined are those of a lone run. -/
theorem solo_after {t : Nat} {σ : Nat → Ans} {T : τ} (hset : Settled asks look I σ T) {n k k' : Nat}
    {p p' : LProg Op R α} {d : δ} (l : Lock)
    (h : after (advance asks look) n (p, k) = some (p', k')) :
    ∃ is d', Solo.run I t is ⟨p, l, T, d⟩ = some ⟨p', l, T, d'⟩ ∧
      ∀ rest, Told asks I t σ k' rest ⟨p', l, T, d'⟩ → Told asks I t σ k (is ++ rest) ⟨p, l, T, d⟩ := by
  induction n generalizing p k d with
  | zero =>
      cases h
      exact ⟨[], d, rfl, fun _ h => h⟩
  | succ n ih =>
      obtain ⟨⟨q, j⟩, hq, h⟩ := Option.bind_eq_some_iff.mp h
      -- the next step, and then the others
      have hgo : ∀ a d₁, Solo.step I t (.ans a) ⟨p, l, T, d⟩ = some ⟨q, l, T, d₁⟩ →
          (p.asking asks = true → a = σ k) → j = (if p.asking asks then k + 1 else k) →
          ∃ is d', Solo.run I t is ⟨p, l, T, d⟩ = some ⟨p', l, T, d'⟩ ∧
            ∀ rest, Told asks I t σ k' rest ⟨p', l, T, d'⟩ →
              Told asks I t σ k (is ++ rest) ⟨p, l, T, d⟩ := by
        intro a d₁ hstep hask hj
        obtain ⟨is, d', hrun, htold⟩ := ih (d := d₁) h
        refine ⟨.ans a :: is, d', ?_, fun rest hrest => ⟨hask, fun s' hs => ?_⟩⟩
        · rw [Solo.run, List.foldlM_cons, hstep]
          exact hrun
        · obtain rfl := Option.some.inj (hstep.symm.trans hs)
          rw [← hj]
          exact htold rest hrest
      cases p with
      | ret x => cases hq
      | loop body q' =>
          cases hq
          exact hgo (σ k) d rfl (fun e => absurd e Bool.false_ne_true) rfl
      | call c q' =>
          cases c with
          | rdlock => cases hq
          | wrlock => cases hq
          | unlock => cases hq
          | op o =>
              obtain ⟨r, hl, e⟩ := Option.map_eq_some_iff.mp hq
              cases e
              obtain ⟨a, hask, ha⟩ := hset.ready (k := k) t d hl
              obtain ⟨⟨r', T', d'⟩, hact⟩ := Option.isSome_iff_exists.mp ha
              obtain ⟨rfl, rfl⟩ := hset.act hl hask hact
              exact hgo a d' (by simp only [Solo.step, headStep, hact, Option.map_some]) hask rfl

/-! ### Every thread at once -/

variable (I) {Call : Type} {Ret : Call → Type} (prog : (c : Call) → LProg Op R (Ret c))

variable (asks) in
/-- A run from `s₀` in which `t` took `n` steps and asked `k` times, told `σ 0`, `σ 1` and so on. -/
inductive Fed (t : Nat) (σ : Nat → Ans) (s₀ : Cfg τ δ Op R Call Ret) :
    Nat → Nat → Cfg τ δ Op R Call Ret → Prop where
  | refl : Fed t σ s₀ 0 0 s₀
  | other {n k : Nat} {s s' : Cfg τ δ Op R Call Ret} (l : Label Ans Ev Call) :
      Fed t σ s₀ n k s → l.thread ≠ some t → s.step I prog l = some s' → Fed t σ s₀ n k s'
  | own {n k : Nat} {s s' : Cfg τ δ Op R Call Ret} {task : Task Op R Call Ret} (a : Ans) :
      Fed t σ s₀ n k s → s.thr t = some task → (task.rest.asking asks = true → a = σ k) →
      s.step I prog (.step t a) = some s' →
      Fed t σ s₀ (n + 1) (if task.rest.asking asks then k + 1 else k) s'

variable (asks) in
/-- From `s₀`, where it holds the lock, `t` stops holding it within a bounded number of its own
steps, and until then it can always take one. -/
structure LetsGo (t : Nat) (σ : Nat → Ans) (s₀ : Cfg τ δ Op R Call Ret) : Prop where
  bounded : ∃ N, ∀ n k s, Fed asks I prog t σ s₀ n k s → N ≤ n → s.lock.held t = .none
  onward : ∀ n k s, Fed asks I prog t σ s₀ n k s → s.lock.held t ≠ .none →
    ∃ k' s', Fed asks I prog t σ s₀ (n + 1) k' s'

variable {I prog} {L : Logic I β} {P : Logic.Sharing L prog} {t : Nat} {σ : Nat → Ans}
  {s₀ s : Cfg τ δ Op R Call Ret} {c : Call} {p : LProg Op R (Ret c)}

/-- As long as its steps are determined, the thread is where they lead. -/
theorem Fed.track {n k : Nat} (hset : Settled asks look I σ s₀.sh) (hG : Logic.Good P s₀)
    (hrd : s₀.lock.held t = .rd) (ht : s₀.thr t = some ⟨c, p⟩) (h : Fed asks I prog t σ s₀ n k s)
    (hn : (after (advance asks look) n (p, 0)).isSome) :
    Logic.Good P s ∧ s.lock.held t = .rd ∧ s.sh = s₀.sh ∧ ∃ p',
      after (advance asks look) n (p, 0) = some (p', k) ∧ s.thr t = some ⟨c, p'⟩ := by
  induction h with
  | refl => exact ⟨hG, hrd, rfl, p, rfl, ht⟩
  | other l _ hne hs ih =>
      obtain ⟨hg, hr, hT, p', hp', ht'⟩ := ih hn
      obtain ⟨ht'', hr', hT'⟩ := hg.step_other hs hne
      exact ⟨hg.step hs, hr'.trans hr, (hT' hr).trans hT, p', hp', ht''.trans ht'⟩
  | @own n k s s' task a _ htask hask hs ih =>
      rw [after_succ] at hn ⊢
      obtain ⟨hg, hr, hT, p', hp', ht'⟩ := ih (Option.isSome_of_isSome_bind hn)
      obtain rfl : task = ⟨c, p'⟩ := Option.some.inj (htask.symm.trans ht')
      have hg' := hg.step hs
      rw [hp', Option.bind_some] at hn ⊢
      simp only [Cfg.step, ht'] at hs
      obtain ⟨⟨q, l', T', d'⟩, hstep, rfl⟩ := Option.map_eq_some_iff.mp hs
      cases p' with
      | ret x => cases hn
      | loop body q' =>
          cases hstep
          exact ⟨hg', hr, hT, _, rfl, Function.update_self ..⟩
      | call c' q' =>
          cases c' with
          | rdlock => cases hn
          | wrlock => cases hn
          | unlock => cases hn
          | op o =>
              obtain ⟨⟨r', T'', d''⟩, hact, e⟩ := Option.map_eq_some_iff.mp hstep
              cases e
              rcases Option.eq_none_or_eq_some (look k o) with hl | ⟨r, hl⟩
              · rw [advance, hl] at hn
                cases hn
              rw [hT] at hact
              obtain ⟨rfl, rfl⟩ := hset.act hl hask hact
              refine ⟨hg', hr, rfl, _, ?_, Function.update_self ..⟩
              rw [advance, hl]
              rfl

theorem Fed.reach {n k : Nat} (h : Fed asks I prog t σ s₀ n k s) : Cfg.Reach I prog s₀ s := by
  induction h with
  | refl => exact .refl
  | other l _ _ hs ih => exact ih.step l hs
  | own a _ _ _ hs ih => exact ih.step _ hs

/-- Where its next step is determined, the thread can take it. -/
theorem Fed.onward {n k : Nat} (hset : Settled asks look I σ s₀.sh) (hG : Logic.Good P s₀)
    (hrd : s₀.lock.held t = .rd) (ht : s₀.thr t = some ⟨c, p⟩) (h : Fed asks I prog t σ s₀ n k s)
    (hn : (after (advance asks look) (n + 1) (p, 0)).isSome) :
    ∃ k' s', Fed asks I prog t σ s₀ (n + 1) k' s' := by
  rw [after_succ] at hn
  obtain ⟨-, hr, hT, p', hp', ht'⟩ := h.track hset hG hrd ht (Option.isSome_of_isSome_bind hn)
  rw [hp', Option.bind_some] at hn
  cases p' with
  | ret x => cases hn
  | loop body q =>
      exact ⟨_, _, h.own (σ k) ht' (fun _ => rfl) (Cfg.step_head I prog ht' rfl)⟩
  | call c' q =>
      cases c' with
      | rdlock => cases hn
      | wrlock => cases hn
      | unlock => cases hn
      | op o =>
          rcases Option.eq_none_or_eq_some (look k o) with hl | ⟨r, hl⟩
          · rw [advance, hl] at hn
            cases hn
          obtain ⟨a, hask, ha⟩ := hset.ready (k := k) t s.fr hl
          obtain ⟨y, hy⟩ := Option.isSome_iff_exists.mp ha
          have hstep : headStep I t a (.call (.op o) q) s.lock s.sh s.fr =
              some (q y.1, s.lock, y.2.1, y.2.2) := by
            simp only [headStep, hT, hy, Option.map_some]
          exact ⟨_, _, h.own a ht' hask (Cfg.step_head I prog ht' hstep)⟩

/-- **A thread lets go** where its steps lead to the release of the lock and its end. -/
theorem letsGo_of_after {N k : Nat} {x : Ret c} (hset : Settled asks look I σ s₀.sh)
    (hG : Logic.Good P s₀) (hrd : s₀.lock.held t = .rd) (ht : s₀.thr t = some ⟨c, p⟩)
    (hN : after (advance asks look) N (p, 0) = some (.call .unlock fun _ => .ret x, k)) :
    LetsGo asks I prog t σ s₀ := by
  have hsome : ∀ {n}, n ≤ N → (after (advance asks look) n (p, 0)).isSome := fun hn =>
    after_isSome_of_le hn (Option.isSome_iff_exists.mpr ⟨_, hN⟩)
  -- it is on its way, or through
  have hwhere : ∀ {n k s}, Fed asks I prog t σ s₀ n k s → n ≤ N ∨
      (n = N + 1 ∧ s.lock.held t = .none ∧ s.thr t = some ⟨c, .ret x⟩) := by
    intro n k s h
    induction h with
    | refl => exact Or.inl (Nat.zero_le N)
    | other l h hne hs ih =>
        rcases ih with hn | ⟨hn, hl, hret⟩
        · exact Or.inl hn
        · obtain ⟨ht', hl', -⟩ := (Logic.reach_good hG h.reach).step_other hs hne
          exact Or.inr ⟨hn, hl'.trans hl, ht'.trans hret⟩
    | own a h htask hask hs ih =>
        rcases ih with hn | ⟨-, -, hret⟩
        · rcases Nat.lt_or_eq_of_le hn with hn | rfl
          · exact Or.inl hn
          · obtain ⟨-, hr, -, p', hp', ht'⟩ := h.track hset hG hrd ht (hsome hn)
            obtain ⟨rfl, -⟩ := Prod.mk.inj (Option.some.inj (hN.symm.trans hp'))
            simp only [Cfg.step, ht', headStep, Option.map_some, Option.some.injEq] at hs
            subst hs
            refine Or.inr ⟨rfl, ?_, Function.update_self ..⟩
            exact (Lock.unlock_spec (by rw [hr]; decide)).1
        · simp [Cfg.step, hret, headStep] at hs
  refine ⟨⟨N + 1, fun n k s h hn => ?_⟩, fun n k s h hl => ?_⟩
  · rcases hwhere h with hle | ⟨-, hl, -⟩
    · omega
    · exact hl
  · rcases hwhere h with hle | ⟨-, hl', -⟩
    · rcases Nat.lt_or_eq_of_le hle with hlt | rfl
      · exact h.onward hset hG hrd ht (hsome hlt)
      · obtain ⟨-, -, -, p', hp', ht'⟩ := h.track hset hG hrd ht (hsome hle)
        obtain ⟨rfl, -⟩ := Prod.mk.inj (Option.some.inj (hN.symm.trans hp'))
        exact ⟨_, _, h.own (σ k) ht' (fun _ => rfl) (Cfg.step_head I prog ht' rfl)⟩
    · exact absurd hl' hl

/-- **A thread whose steps never end holds the lock** in every state, and nobody writes. -/
theorem Fed.holds {n k : Nat} (hset : Settled asks look I σ s₀.sh) (hG : Logic.Good P s₀)
    (hrd : s₀.lock.held t = .rd) (ht : s₀.thr t = some ⟨c, p⟩)
    (hinf : ∀ n, (after (advance asks look) n (p, 0)).isSome)
    (h : Fed asks I prog t σ s₀ n k s) : s.lock.held t = .rd ∧ ∀ u, s.lock.wrlock u = none := by
  obtain ⟨-, hr, -⟩ := h.track hset hG hrd ht (hinf n)
  refine ⟨hr, fun u => ?_⟩
  cases hl : s.lock.wrlock u with
  | none => rfl
  | some l =>
      have := (Lock.wrlock_spec hl).2.2.1 t
      rw [hr] at this
      cases this

/-- It never lets go. -/
theorem not_letsGo (hset : Settled asks look I σ s₀.sh) (hG : Logic.Good P s₀)
    (hrd : s₀.lock.held t = .rd) (ht : s₀.thr t = some ⟨c, p⟩)
    (hinf : ∀ n, (after (advance asks look) n (p, 0)).isSome) : ¬ LetsGo asks I prog t σ s₀ := by
  rintro ⟨⟨N, hN⟩, -⟩
  have hruns : ∀ n, ∃ k s, Fed asks I prog t σ s₀ n k s := by
    intro n
    induction n with
    | zero => exact ⟨0, s₀, .refl⟩
    | succ n ih =>
        obtain ⟨k, s, h⟩ := ih
        exact h.onward hset hG hrd ht (hinf (n + 1))
  obtain ⟨k, s, h⟩ := hruns N
  have hnone := hN N k s h (Nat.le_refl N)
  rw [(h.holds hset hG hrd ht hinf).1] at hnone
  cases hnone

end stream

end Conc
