import TrigEmitKafka.Support.Slots

/-!
# Support — programs over a signature of calls

A program returns, makes a call and goes on with its result, or repeats a body until the body
yields a value (`Prog`).  It fixes no meaning for the calls: a machine answers them, and the
same program can be run alone or interleaved with others.

`wp φ p m Q` is the verification condition of `p` at the mode `m`: `φ c m Φ` says what must
hold before the call `c` so that `Φ` holds of every result and mode after it.  A `loop` needs
an invariant of the mode, kept by every round that does not yield.

`scan` and `forEach` are the two loops over an array: a search that stops at the first hit, and
a pass over every element.
-/

namespace Conc

open Slots (firstIdx)

/-- A program over the calls `C`, a call `c` returning an `R c`. -/
inductive Prog (C : Type) (R : C → Type) : Type → Type 1 where
  | ret {α : Type} (a : α) : Prog C R α
  | call {α : Type} (c : C) (k : R c → Prog C R α) : Prog C R α
  | loop {α β : Type} (body : Prog C R (Option β)) (k : β → Prog C R α) : Prog C R α

namespace Prog

variable {C : Type} {R : C → Type} {α β γ : Type}

/-- `p`, then `f` at its value. -/
def bind {α β : Type} : Prog C R α → (α → Prog C R β) → Prog C R β
  | .ret a,       f => f a
  | .call c k,    f => .call c fun r => bind (k r) f
  | .loop body k, f => .loop body fun x => bind (k x) f

instance : Monad (Prog C R) where
  pure := .ret
  bind := bind

theorem bind_assoc (p : Prog C R α) (f : α → Prog C R β) (g : β → Prog C R γ) :
    p >>= f >>= g = p >>= fun a => f a >>= g := by
  show bind (bind p f) g = bind p fun a => bind (f a) g
  induction p with
  | ret a => rfl
  | call c k ih => exact congrArg (Prog.call c) (funext fun r => ih r f)
  | loop body k _ ih => exact congrArg (Prog.loop body) (funext fun x => ih x f)

/-- The call `c`, as a program. -/
def emit (c : C) : Prog C R (R c) := .call c .ret

/-- One round of a loop, then the loop again or what follows it. -/
def unroll (body : Prog C R (Option β)) (k : β → Prog C R α) : Prog C R α :=
  body.bind fun
    | none   => .loop body k
    | some x => k x

/-- The first element of `as` that passes `test`, with its index counted from `i`. -/
def scan (test : α → Prog C R Bool) : Nat → List α → Prog C R (Option (Nat × α))
  | _, []      => pure none
  | i, a :: as => do
      if ← test a then pure (some (i, a)) else scan test (i + 1) as

/-- `f` at every element of `as`, in order. -/
def forEach (f : α → Prog C R Unit) : List α → Prog C R Unit
  | []      => pure ()
  | a :: as => do
      f a
      forEach f as

/-! ### Programs without a loop -/

/-- The program does not repeat, and every call it may come to is one of `P`. -/
def Straight (P : C → Prop) : {α : Type} → Prog C R α → Prop
  | _, .ret _    => True
  | _, .call c k => P c ∧ ∀ r, Straight P (k r)
  | _, .loop _ _ => False

theorem Straight.bind {P : C → Prop} {p : Prog C R α} {f : α → Prog C R β} (hp : p.Straight P)
    (hf : ∀ a, (f a).Straight P) : (p >>= f).Straight P := by
  induction p with
  | ret a => exact hf a
  | call c k ih => exact ⟨hp.1, fun r => ih r (hp.2 r) hf⟩
  | loop body k => exact hp.elim

theorem Straight.mono {P Q : C → Prop} (h : ∀ c, P c → Q c) {p : Prog C R α} (hp : p.Straight P) :
    p.Straight Q := by
  induction p with
  | ret a => trivial
  | call c k ih => exact ⟨h c hp.1, fun r => ih r (hp.2 r)⟩
  | loop body k => exact hp.elim

theorem Straight.scan {P : C → Prop} {test : α → Prog C R Bool} (ht : ∀ a, (test a).Straight P)
    (i : Nat) (as : List α) : (Prog.scan test i as).Straight P := by
  induction as generalizing i with
  | nil => trivial
  | cons a as ih =>
      refine (ht a).bind fun found => ?_
      split
      · trivial
      · exact ih _

theorem Straight.forEach {P : C → Prop} {f : α → Prog C R Unit} (hf : ∀ a, (f a).Straight P)
    (as : List α) : (Prog.forEach f as).Straight P := by
  induction as with
  | nil => trivial
  | cons a as ih => exact (hf a).bind fun _ => ih

/-! ### The verification condition -/

section wp

variable {M : Type}

/-- After a round of a loop: the invariant if it yielded nothing, else the goal. -/
def AfterRound (I : M → Prop) (Q : β → M → Prop) : Option β → M → Prop
  | none,   m => I m
  | some x, m => Q x m

variable (φ : (c : C) → M → (R c → M → Prop) → Prop)

/-- The verification condition of a program, for the calls' conditions `φ`. -/
def wp : {α : Type} → Prog C R α → M → (α → M → Prop) → Prop
  | _, .ret a,       m, Q => Q a m
  | _, .call c k,    m, Q => φ c m fun r m' => wp (k r) m' Q
  | _, .loop body k, m, Q => ∃ I : M → Prop, I m ∧ ∀ m₁, I m₁ →
      wp body m₁ (AfterRound I fun x m' => wp (k x) m' Q)

variable {φ}

theorem wp_ret {a : α} {m : M} {Q : α → M → Prop} (h : Q a m) : wp φ (.ret a) m Q := h

theorem wp_pure {a : α} {m : M} {Q : α → M → Prop} (h : Q a m) :
    wp φ (pure a : Prog C R α) m Q := h

/-- The condition of a sequence, by recursion on its first part. -/
theorem wp_bind_iff (p : Prog C R α) (f : α → Prog C R β) (m : M) (Q : β → M → Prop) :
    wp φ (p.bind f) m Q ↔ wp φ p m fun a m' => wp φ (f a) m' Q := by
  induction p generalizing m with
  | ret a => exact Iff.rfl
  | call c k ih =>
      refine iff_of_eq (congrArg (φ c m) (funext fun r => funext fun m' => propext ?_))
      exact ih r f m'
  | loop body k _ ih =>
      refine exists_congr fun I => and_congr_right fun _ => forall_congr' fun m₁ =>
        imp_congr_right fun _ => iff_of_eq (congrArg (wp φ body m₁) ?_)
      funext o m'
      cases o with
      | none => rfl
      | some x => exact propext (ih x f m')

/-- **Sequencing.** -/
theorem wp_bind {p : Prog C R α} {f : α → Prog C R β} {m : M} {Q : β → M → Prop}
    (h : wp φ p m fun a m' => wp φ (f a) m' Q) : wp φ (p >>= f) m Q :=
  (wp_bind_iff p f m Q).mpr h

/-- A call, then the rest. -/
theorem wp_emit {c : C} {m : M} {Q : R c → M → Prop} (h : φ c m Q) :
    wp φ (emit c : Prog C R (R c)) m Q := h

/-- A weaker goal needs a weaker condition, call by call. -/
def Mono (φ : (c : C) → M → (R c → M → Prop) → Prop) : Prop :=
  ∀ c m (Φ Ψ : R c → M → Prop), (∀ r m', Φ r m' → Ψ r m') → φ c m Φ → φ c m Ψ

/-- **Consequence.** -/
theorem wp_mono (hφ : Mono φ) (p : Prog C R α) {m : M} {P Q : α → M → Prop}
    (hPQ : ∀ a m', P a m' → Q a m') (h : wp φ p m P) : wp φ p m Q := by
  induction p generalizing m with
  | ret a => exact hPQ a m h
  | call c k ih => exact hφ c m _ _ (fun r m' => ih r hPQ) h
  | loop body k ihb ih =>
      obtain ⟨I, hm, hI⟩ := h
      refine ⟨I, hm, fun m₁ h₁ => ihb (fun o m' ho => ?_) (hI m₁ h₁)⟩
      cases o with
      | none => exact ho
      | some x => exact ih x hPQ ho

/-- One round of a loop keeps its condition. -/
theorem wp_unroll (hφ : Mono φ) {body : Prog C R (Option β)} {k : β → Prog C R α} {m : M}
    {Q : α → M → Prop} (h : wp φ (.loop body k) m Q) : wp φ (unroll body k) m Q := by
  obtain ⟨I, hm, hI⟩ := h
  refine (wp_bind_iff _ _ _ _).mpr (wp_mono hφ body (fun o m' ho => ?_) (hI m hm))
  cases o with
  | none => exact ⟨I, ho, hI⟩
  | some x => exact ho

/-- **A loop**, at the invariant `I`. -/
theorem wp_loop {body : Prog C R (Option β)} {k : β → Prog C R α} {m : M} {Q : α → M → Prop}
    (I : M → Prop) (hm : I m)
    (h : ∀ m₁, I m₁ → wp φ body m₁ (AfterRound I fun x m' => wp φ (k x) m' Q)) :
    wp φ (.loop body k) m Q :=
  ⟨I, hm, h⟩

/-! ### The two array loops -/

/-- **A search** over the values of `g`: where the test of each answers `f`, the search answers
`firstIdx f`. -/
theorem wp_scan {g : γ → α} {test : α → Prog C R Bool} {f : γ → Bool} {m : M}
    {Q : Option (Nat × α) → M → Prop} (as : List γ) (i : Nat)
    (ht : ∀ a ∈ as, ∀ P : Bool → M → Prop, P (f a) m → wp φ (test (g a)) m P)
    (h : Q ((firstIdx f i as).map (Prod.map id g)) m) : wp φ (scan test i (as.map g)) m Q := by
  induction as generalizing i with
  | nil => exact h
  | cons a as ih =>
      refine wp_bind (ht a List.mem_cons_self _ ?_)
      rw [firstIdx] at h
      cases hf : f a with
      | true => rw [hf] at h; exact h
      | false =>
          rw [hf] at h
          exact ih (i + 1) (fun b hb => ht b (List.mem_cons_of_mem a hb)) h

end wp

end Prog

end Conc
