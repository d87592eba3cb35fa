import Mathlib.Data.List.Count
import TrigEmitKafka.Support.Heap
import TrigEmitKafka.Support.LockMachine

/-!
# Support — the log of a run, and the objects it acquires and releases

A run may keep a log: at every step that does something, what was done (`runLog`).  The log of a
`Conc` machine holds each operation with its result.

A `Book` says of an event which object it acquires and which it releases.  Objects are counted in
a log (`acquired`, `released`) and watched in a state: a `Stock` says which are live and which
were never handed out.  `Stock.Moved` is what an event does to a stock, and a log is `Balanced`
with a stock when every live object was acquired once and not released, every other one that was
handed out was acquired once and released once, and no event is about the rest.

* `Balanced.step`: an event that moves the stock as it says keeps the balance.
* `Balanced.settled`: an object that is not live was released as often as it was acquired.
-/

namespace Ledger

/-! ### Logs -/

section log

universe u v w

variable {σ : Type u} {κ : Type v} {ε : Type w}

/-- A run with the log of what its steps did. -/
def runLog (step : κ → σ → Option σ) (done : κ → σ → Option ε) (ls : List κ) (s : σ) :
    Option (List ε × σ) :=
  ls.foldlM (fun x l => (step l x.2).map fun s => (x.1 ++ (done l x.2).toList, s)) ([], s)

variable {step : κ → σ → Option σ} {done : κ → σ → Option ε}

/-- What every step keeps of the log and the state, a run keeps. -/
theorem runLog_keeps {P : List ε → σ → Prop}
    (hstep : ∀ {tr s l s'}, P tr s → step l s = some s' → P (tr ++ (done l s).toList) s')
    {ls : List κ} {s s' : σ} {tr : List ε} (h : runLog step done ls s = some (tr, s'))
    (hs : P [] s) : P tr s' := by
  have hfrom : ∀ (ls : List κ) (x : List ε × σ), P x.1 x.2 →
      ls.foldlM (fun x l => (step l x.2).map fun s => (x.1 ++ (done l x.2).toList, s)) x
        = some (tr, s') → P tr s' := by
    intro ls
    induction ls with
    | nil =>
        intro x hx hfold
        cases hfold
        exact hx
    | cons l ls ih =>
        intro x hx hfold
        obtain ⟨y, hy, hrest⟩ := Option.bind_eq_some_iff.mp hfold
        obtain ⟨s₁, hs₁, rfl⟩ := Option.map_eq_some_iff.mp hy
        exact ih _ (hstep hx hs₁) hrest
  exact hfrom ls ([], s) hs h

/-- The run, without its log. -/
theorem run_of_runLog {ls : List κ} {s s' : σ} {tr : List ε}
    (h : runLog step done ls s = some (tr, s')) :
    ls.foldlM (fun s l => step l s) s = some s' := by
  have hfrom : ∀ (ls : List κ) (x : List ε × σ),
      ls.foldlM (fun x l => (step l x.2).map fun s => (x.1 ++ (done l x.2).toList, s)) x
        = some (tr, s') → ls.foldlM (fun s l => step l s) x.2 = some s' := by
    intro ls
    induction ls with
    | nil =>
        intro x hfold
        cases hfold
        rfl
    | cons l ls ih =>
        intro x hfold
        obtain ⟨y, hy, hrest⟩ := Option.bind_eq_some_iff.mp hfold
        obtain ⟨s₁, hs₁, rfl⟩ := Option.map_eq_some_iff.mp hy
        exact Option.bind_eq_some_iff.mpr ⟨s₁, hs₁, ih _ hrest⟩
  exact hfrom ls ([], s) h

/-- Every event of the log meets `C` with the log before it. -/
def Each (C : List ε → ε → Prop) (tr : List ε) : Prop :=
  ∀ tr₁ e tr₂, tr = tr₁ ++ e :: tr₂ → C tr₁ e

variable {C : List ε → ε → Prop} {tr : List ε} {e : ε}

theorem Each.nil : Each C [] := by
  intro tr₁ e tr₂ h
  have := congrArg List.length h
  simp at this

theorem Each.snoc (h : Each C tr) (he : C tr e) : Each C (tr ++ [e]) := by
  intro tr₁ e' tr₂ heq
  rcases List.eq_nil_or_concat tr₂ with rfl | ⟨tr₃, e'', rfl⟩
  · obtain ⟨rfl, hlast⟩ := List.append_inj' heq rfl
    cases hlast
    exact he
  · rw [List.concat_eq_append, ← List.cons_append, ← List.append_assoc] at heq
    exact h tr₁ e' tr₃ (List.append_inj' heq rfl).1

end log

/-! ### Stocks -/

/-- Which objects are live, and which were never handed out. -/
@[ext]
structure Stock (ι : Type) where
  live : ι → Prop
  fresh : ι → Prop

namespace Stock

variable {ι κ α : Type}

/-- A move of a stock: `g` is handed out, if there is one, and `l` is gone. -/
structure Moved (g l : Option ι) (S S' : Stock ι) : Prop where
  gain : ∀ x, g = some x → S.fresh x
  loss : ∀ x, l = some x → S.live x
  live : ∀ x, S'.live x ↔ g = some x ∨ S.live x ∧ l ≠ some x
  fresh : ∀ x, S'.fresh x ↔ S.fresh x ∧ g ≠ some x

theorem Moved.same (S : Stock ι) : Moved none none S S where
  gain x h := by cases h
  loss x h := by cases h
  live x := by simp
  fresh x := by simp

/-- The objects of a heap. -/
def ofHeap (h : Store.Heap α) : Stock Nat := ⟨h.Live, fun p => h.next ≤ p⟩

theorem moved_alloc (h : Store.Heap α) (a : α) :
    Moved (some h.next) none (ofHeap h) (ofHeap (h.alloc a)) where
  gain p hp := by cases hp; exact le_refl h.next
  loss p hp := by cases hp
  live p := by
    by_cases e : p = h.next
    · subst e
      simp [ofHeap, Store.Heap.Live]
    · simp [ofHeap, Store.Heap.Live, Store.Heap.get_alloc_ne e, Ne.symm e]
  fresh p := by
    simp only [ofHeap, Store.Heap.next_alloc, ne_eq, Option.some.injEq]
    omega

theorem moved_free {h : Store.Heap α} {p : Nat} (hp : h.Live p) :
    Moved none (some p) (ofHeap h) (ofHeap (h.free p)) where
  gain q hq := by cases hq
  loss q hq := by cases hq; exact hp
  live q := by
    by_cases e : q = p
    · subst e
      simp [ofHeap, Store.Heap.Live]
    · simp [ofHeap, Store.Heap.Live, Store.Heap.get_free_ne e, Ne.symm e]
  fresh q := by simp [ofHeap]

theorem moved_set (h : Store.Heap α) (p : Nat) (a : α) :
    Moved none none (ofHeap h) (ofHeap (h.set p a)) := by
  have hset : ofHeap (h.set p a) = ofHeap h :=
    Stock.ext (funext fun q => congrArg (· = true) (h.isSome_set p q a)) rfl
  rw [hset]
  exact Moved.same _

/-- One object for another. -/
theorem Moved.swap {p q : ι} {S S₁ S' : Stock ι} (hl : Moved none (some q) S S₁)
    (hg : Moved (some p) none S₁ S') : Moved (some p) (some q) S S' where
  gain x hx := ((hl.fresh x).mp (hg.gain x hx)).1
  loss x hx := hl.loss x hx
  live x := by
    rw [hg.live, hl.live]
    simp
  fresh x := by
    rw [hg.fresh, hl.fresh]
    simp

/-- Stocks of several kinds, as one. -/
def all (S : κ → Stock ι) : Stock (κ × ι) := ⟨fun x => (S x.1).live x.2, fun x => (S x.1).fresh x.2⟩

/-- The object, if it is of kind `k`. -/
def part [DecidableEq κ] (k : κ) : Option (κ × ι) → Option ι
  | none   => none
  | some x => if x.1 = k then some x.2 else none

theorem part_eq_some [DecidableEq κ] {k : κ} {o : Option (κ × ι)} {p : ι} :
    part k o = some p ↔ o = some (k, p) := by
  cases o with
  | none => simp [part]
  | some x =>
      obtain ⟨j, q⟩ := x
      by_cases e : j = k
      · simp [part, e]
      · simp [part, e]

/-- A move is a move of each kind. -/
theorem Moved.all [DecidableEq κ] {g l : Option (κ × ι)} {S S' : κ → Stock ι}
    (h : ∀ k, Moved (part k g) (part k l) (S k) (S' k)) :
    Moved g l (Stock.all S) (Stock.all S') where
  gain x hx := (h x.1).gain x.2 (part_eq_some.mpr hx)
  loss x hx := (h x.1).loss x.2 (part_eq_some.mpr hx)
  live x := by
    refine ((h x.1).live x.2).trans (or_congr part_eq_some (and_congr_right fun _ => ?_))
    exact not_congr part_eq_some
  fresh x := by
    refine ((h x.1).fresh x.2).trans (and_congr_right fun _ => ?_)
    exact not_congr part_eq_some

end Stock

/-! ### Books -/

/-- What each event acquires, and what it releases. -/
structure Book (ε ι : Type) where
  gain : ε → Option ι
  loss : ε → Option ι

namespace Book

variable {ε ι : Type} [DecidableEq ι] (B : Book ε ι)

/-- How often the log acquires `x`. -/
def acquired (x : ι) (tr : List ε) : Nat := tr.countP fun e => B.gain e = some x

/-- How often the log releases `x`. -/
def released (x : ι) (tr : List ε) : Nat := tr.countP fun e => B.loss e = some x

variable {B} {x : ι} {tr : List ε} {e : ε} {S S' : Stock ι}

theorem acquired_snoc :
    B.acquired x (tr ++ [e]) = B.acquired x tr + if B.gain e = some x then 1 else 0 := by
  rw [acquired, List.countP_append, List.countP_singleton]
  simp [acquired]

theorem released_snoc :
    B.released x (tr ++ [e]) = B.released x tr + if B.loss e = some x then 1 else 0 := by
  rw [released, List.countP_append, List.countP_singleton]
  simp [released]

theorem acquired_pos (he : e ∈ tr) (hx : B.gain e = some x) : 0 < B.acquired x tr :=
  List.countP_pos_iff.mpr ⟨e, he, decide_eq_true hx⟩

/-- The log and the stock agree on every object. -/
structure Balanced (B : Book ε ι) (tr : List ε) (S : Stock ι) : Prop where
  fresh : ∀ x, S.fresh x → B.acquired x tr = 0 ∧ B.released x tr = 0
  live : ∀ x, S.live x → B.acquired x tr = 1 ∧ B.released x tr = 0
  gone : ∀ x, ¬ S.fresh x → ¬ S.live x → B.acquired x tr = 1 ∧ B.released x tr = 1

/-- Nothing was handed out yet. -/
theorem Balanced.nil (hS : ∀ x, S.fresh x) (hlive : ∀ x, ¬ S.live x) : B.Balanced [] S where
  fresh _ _ := ⟨rfl, rfl⟩
  live x h := absurd h (hlive x)
  gone x h _ := absurd (hS x) h

/-- What was never handed out is not live. -/
theorem Balanced.apart (h : B.Balanced tr S) (hx : S.fresh x) : ¬ S.live x := by
  intro hl
  have h₀ := (h.fresh x hx).1
  rw [(h.live x hl).1] at h₀
  cases h₀

/-- **An event that moves the stock as it says keeps the balance.** -/
theorem Balanced.step (h : B.Balanced tr S) (he : Stock.Moved (B.gain e) (B.loss e) S S') :
    B.Balanced (tr ++ [e]) S' where
  fresh x hx := by
    obtain ⟨hf, hg⟩ := (he.fresh x).mp hx
    have hl : B.loss e ≠ some x := fun hl => h.apart hf (he.loss x hl)
    rw [acquired_snoc, released_snoc, if_neg hg, if_neg hl]
    exact h.fresh x hf
  live x hx := by
    rw [acquired_snoc, released_snoc]
    rcases (he.live x).mp hx with hg | ⟨hlive, hl⟩
    · have hf := he.gain x hg
      have hl : B.loss e ≠ some x := fun hl => h.apart hf (he.loss x hl)
      rw [if_pos hg, if_neg hl, (h.fresh x hf).1, (h.fresh x hf).2]
      exact ⟨rfl, rfl⟩
    · have hg : B.gain e ≠ some x := fun hg => h.apart (he.gain x hg) hlive
      rw [if_neg hg, if_neg hl]
      exact h.live x hlive
  gone x hf hx := by
    have hg : B.gain e ≠ some x := fun hg => hx ((he.live x).mpr (Or.inl hg))
    have hf' : ¬ S.fresh x := fun h' => hf ((he.fresh x).mpr ⟨h', hg⟩)
    rw [acquired_snoc, released_snoc, if_neg hg]
    by_cases hl : B.loss e = some x
    · rw [if_pos hl, (h.live x (he.loss x hl)).1, (h.live x (he.loss x hl)).2]
      exact ⟨rfl, rfl⟩
    · rw [if_neg hl]
      exact h.gone x hf' fun hlive => hx ((he.live x).mpr (Or.inr ⟨hlive, hl⟩))

/-- **An object that is not live was released as often as it was acquired.** -/
theorem Balanced.settled (h : B.Balanced tr S) (hx : ¬ S.live x) :
    B.acquired x tr = B.released x tr := by
  by_cases hf : S.fresh x
  · rw [(h.fresh x hf).1, (h.fresh x hf).2]
  · rw [(h.gone x hf hx).1, (h.gone x hf hx).2]

/-- An object is acquired once at most. -/
theorem Balanced.acquired_le (h : B.Balanced tr S) : B.acquired x tr ≤ 1 := by
  by_cases hf : S.fresh x
  · rw [(h.fresh x hf).1]
    exact Nat.zero_le 1
  · by_cases hl : S.live x
    · exact le_of_eq (h.live x hl).1
    · exact le_of_eq (h.gone x hf hl).1

/-- An object is released only where it was acquired. -/
theorem Balanced.released_le (h : B.Balanced tr S) : B.released x tr ≤ B.acquired x tr := by
  by_cases hl : S.live x
  · rw [(h.live x hl).2]
    exact Nat.zero_le _
  · exact le_of_eq (h.settled hl).symm

/-- An object the log acquired and that is not live was released once. -/
theorem Balanced.released_of_pos (h : B.Balanced tr S) (hpos : 0 < B.acquired x tr)
    (hx : ¬ S.live x) : B.released x tr = 1 := by
  have hf : ¬ S.fresh x := fun hf => by
    rw [(h.fresh x hf).1] at hpos
    cases hpos
  exact (h.gone x hf hx).2

/-- An object the log acquired and did not release is live. -/
theorem Balanced.live_of_ne (h : B.Balanced tr S) (hne : B.acquired x tr ≠ B.released x tr) :
    S.live x := by
  by_contra hx
  exact hne (h.settled hx)

end Book

end Ledger

namespace Conc

/-! ### The log of a machine -/

section machine

variable {τ δ Op : Type} {R : Op → Type} {Ans Ev : Type} (I : Iface τ δ Op R Ans Ev)

/-- The operation a program takes with its next step, and its result. -/
def headDone (t : Nat) (a : Ans) {α : Type} : LProg Op R α → τ → δ → Option ((o : Op) × R o)
  | .call (.op o) _, T, d => (I.act t o a T d).map fun r => ⟨o, r.1⟩
  | _,               _, _ => none

variable {I}

/-- A step of a program leaves both parts of the state and the log, or is an operation. -/
theorem headStep_done {t : Nat} {a : Ans} {α : Type} {p p' : LProg Op R α} {l l' : Lock} {T T' : τ}
    {d d' : δ} (h : headStep I t a p l T d = some (p', l', T', d')) :
    (headDone I t a p T d = none ∧ T' = T ∧ d' = d) ∨
      ∃ o k r, p = .call (.op o) k ∧ I.act t o a T d = some (r, T', d') ∧
        headDone I t a p T d = some ⟨o, r⟩ := by
  cases p with
  | ret x => cases h
  | loop body k => cases h; exact Or.inl ⟨rfl, rfl, rfl⟩
  | call c k =>
      cases c with
      | rdlock =>
          obtain ⟨_, _, e⟩ := Option.map_eq_some_iff.mp h
          cases e; exact Or.inl ⟨rfl, rfl, rfl⟩
      | wrlock =>
          obtain ⟨_, _, e⟩ := Option.map_eq_some_iff.mp h
          cases e; exact Or.inl ⟨rfl, rfl, rfl⟩
      | unlock => cases h; exact Or.inl ⟨rfl, rfl, rfl⟩
      | op o =>
          obtain ⟨r, hr, e⟩ := Option.map_eq_some_iff.mp h
          cases e
          exact Or.inr ⟨o, k, r.1, rfl, hr, by rw [headDone, hr, Option.map_some]⟩

variable (I)

variable {Call : Type} {Ret : Call → Type}

/-- The operation a step of the machine is, and its result. -/
def Cfg.done (l : Label Ans Ev Call) (s : Cfg τ δ Op R Call Ret) : Option ((o : Op) × R o) :=
  match l with
  | .step t a => (s.thr t).bind fun task => headDone I t a task.rest s.sh s.fr
  | _         => none

/-- A run of the machine, with its log. -/
def Cfg.runLog (prog : (c : Call) → LProg Op R (Ret c)) (ls : List (Label Ans Ev Call))
    (s : Cfg τ δ Op R Call Ret) : Option (List ((o : Op) × R o) × Cfg τ δ Op R Call Ret) :=
  Ledger.runLog (Cfg.step I prog) (Cfg.done I) ls s

/-- The operation a step of a lone run is, and its result. -/
def Solo.done {α : Type} (t : Nat) (i : Item Ans Ev) (s : Solo τ δ Op R α) :
    Option ((o : Op) × R o) :=
  match i with
  | .ans a => headDone I t a s.rest s.sh s.fr
  | .env _ => none

/-- Thread `t` runs `p` from start to end with only the environment in between, and keeps a log. -/
def execLog {α : Type} (t : Nat) (p : LProg Op R α) (is : List (Item Ans Ev)) (T : τ) (d : δ) :
    Option (α × List ((o : Op) × R o) × τ × δ) :=
  (Ledger.runLog (Solo.step I t) (Solo.done I t) is ⟨p, .free, T, d⟩).bind fun x =>
    x.2.result.map fun y => (y.1, x.1, y.2.1, y.2.2)

variable {I}

/-- What a step of the machine does to the state and the log. -/
theorem Cfg.step_done {prog : (c : Call) → LProg Op R (Ret c)} {s s' : Cfg τ δ Op R Call Ret}
    {l : Label Ans Ev Call} (h : s.step I prog l = some s') :
    (s.done I l = none ∧ s'.sh = s.sh ∧ s'.fr = s.fr) ∨
      (∃ t c o k a r, s.thr t = some ⟨c, .call (.op o) k⟩ ∧
        I.act t o a s.sh s.fr = some (r, s'.sh, s'.fr) ∧ s.done I l = some ⟨o, r⟩) ∨
      (s.done I l = none ∧ s'.sh = s.sh ∧ ∃ e, I.env e s.sh s.fr = some s'.fr) := by
  cases l with
  | start t c =>
      simp only [Cfg.step] at h
      split at h <;> cases h
      exact Or.inl ⟨rfl, rfl, rfl⟩
  | finish t =>
      simp only [Cfg.step] at h
      split at h <;> cases h
      exact Or.inl ⟨rfl, rfl, rfl⟩
  | env e =>
      obtain ⟨d, hd, rfl⟩ := Option.map_eq_some_iff.mp h
      exact Or.inr (Or.inr ⟨rfl, rfl, e, hd⟩)
  | step t a =>
      simp only [Cfg.step] at h
      split at h
      · cases h
      · rename_i task ht
        obtain ⟨⟨p', l', T', d'⟩, hr, rfl⟩ := Option.map_eq_some_iff.mp h
        have hdone : s.done I (.step t a) = headDone I t a task.rest s.sh s.fr := by
          rw [Cfg.done, ht, Option.bind_some]
        rcases headStep_done hr with ⟨hnone, rfl, rfl⟩ | ⟨o, k, r, hrest, ha, hsome⟩
        · exact Or.inl ⟨hdone.trans hnone, rfl, rfl⟩
        · have hnext : s.thr t = some ⟨task.call, .call (.op o) k⟩ := by
            rw [ht, ← hrest]
          exact Or.inr (Or.inl ⟨t, _, o, k, a, r, hnext, ha, hdone.trans hsome⟩)

/-- What a step of a lone run does to the state and the log. -/
theorem Solo.step_done {α : Type} {t : Nat} {s s' : Solo τ δ Op R α} {i : Item Ans Ev}
    (h : s.step I t i = some s') :
    (s.done I t i = none ∧ s'.sh = s.sh ∧ s'.fr = s.fr) ∨
      (∃ o k a r, s.rest = .call (.op o) k ∧
        I.act t o a s.sh s.fr = some (r, s'.sh, s'.fr) ∧ s.done I t i = some ⟨o, r⟩) ∨
      (s.done I t i = none ∧ s'.sh = s.sh ∧ ∃ e, I.env e s.sh s.fr = some s'.fr) := by
  cases i with
  | env e =>
      obtain ⟨d, hd, rfl⟩ := Option.map_eq_some_iff.mp h
      exact Or.inr (Or.inr ⟨rfl, rfl, e, hd⟩)
  | ans a =>
      obtain ⟨⟨p', l', T', d'⟩, hr, rfl⟩ := Option.map_eq_some_iff.mp h
      rcases headStep_done hr with ⟨hnone, rfl, rfl⟩ | ⟨o, k, r, hrest, ha, hsome⟩
      · exact Or.inl ⟨hnone, rfl, rfl⟩
      · exact Or.inr (Or.inl ⟨o, k, a, r, hrest, ha, hsome⟩)

/-- The state a lone run ends with is the one it is in. -/
theorem Solo.result_state {α : Type} {s : Solo τ δ Op R α} {x : α} {T : τ} {d : δ}
    (h : s.result = some (x, T, d)) : s.sh = T ∧ s.fr = d := by
  obtain ⟨rest, l, T₁, d₁⟩ := s
  cases rest with
  | ret y =>
      cases l with
      | reading rs =>
          simp only [Solo.result] at h
          split at h <;> cases h
          exact ⟨rfl, rfl⟩
      | writing u => cases h
  | call c k => cases l <;> cases h
  | loop body k => cases l <;> cases h

theorem Cfg.run_of_runLog {prog : (c : Call) → LProg Op R (Ret c)} {ls : List (Label Ans Ev Call)}
    {s s' : Cfg τ δ Op R Call Ret} {tr : List ((o : Op) × R o)}
    (h : Cfg.runLog I prog ls s = some (tr, s')) : Cfg.run I prog ls s = some s' :=
  Ledger.run_of_runLog h

/-- The lone run, without its log. -/
theorem exec_of_execLog {α : Type} {t : Nat} {p : LProg Op R α} {is : List (Item Ans Ev)}
    {T T' : τ} {d d' : δ} {x : α} {tr : List ((o : Op) × R o)}
    (h : execLog I t p is T d = some (x, tr, T', d')) : exec I t p is T d = some (x, T', d') := by
  obtain ⟨⟨tr', s⟩, hs, hr⟩ := Option.bind_eq_some_iff.mp h
  obtain ⟨⟨y, T₁, d₁⟩, hy, e⟩ := Option.map_eq_some_iff.mp hr
  cases e
  exact Option.bind_eq_some_iff.mpr ⟨s, Ledger.run_of_runLog hs, hy⟩

end machine

end Conc
