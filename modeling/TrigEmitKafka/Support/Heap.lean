import Mathlib.Algebra.Order.Group.Multiset
import Mathlib.Data.Multiset.UnionInter
import Mathlib.Logic.Function.Basic

/-!
# Support — a heap and what it holds

A heap of objects of one type.  A pointer is never handed out twice (`next` only grows), so a
pointer to a freed object stays one, and its use can be told from the use of a live one.

`h.Holds s` says that the multiset `s` is what `h` holds, each object with its value.  Whoever
keeps such a multiset up to date has no leak (every live object is in it), no double free (an
object leaves it when it is freed) and no two owners of one object (no pointer is in it twice).
-/

namespace Store

/-- Objects by pointer; a pointer not handed out yet has none. -/
structure Heap (α : Type) where
  get : Nat → Option α
  next : Nat
  fresh : ∀ p, next ≤ p → get p = none

namespace Heap

variable {α : Type}

/-- The heap with nothing in it. -/
def empty : Heap α := ⟨fun _ => none, 0, fun _ _ => rfl⟩

/-- A new object, at the pointer `h.next`. -/
def alloc (a : α) (h : Heap α) : Heap α where
  get := Function.update h.get h.next (some a)
  next := h.next + 1
  fresh p hp := by
    rw [Function.update_of_ne (by omega)]
    exact h.fresh p (by omega)

def free (p : Nat) (h : Heap α) : Heap α where
  get := Function.update h.get p none
  next := h.next
  fresh q hq := by
    by_cases e : q = p
    · rw [e, Function.update_self]
    · rw [Function.update_of_ne e]; exact h.fresh q hq

/-- A write to a live object. -/
def set (p : Nat) (a : α) (h : Heap α) : Heap α where
  get q := if q = p then (h.get q).map fun _ => a else h.get q
  next := h.next
  fresh q hq := by rw [h.fresh q hq]; simp

/-- `p` points to a live object. -/
def Live (h : Heap α) (p : Nat) : Prop := (h.get p).isSome

theorem lt_next {h : Heap α} {p : Nat} {a : α} (hp : h.get p = some a) : p < h.next := by
  by_contra hn
  rw [h.fresh p (by omega)] at hp; cases hp

theorem ne_next {h : Heap α} {p : Nat} {a : α} (hp : h.get p = some a) : p ≠ h.next :=
  Nat.ne_of_lt (lt_next hp)

@[simp] theorem get_empty (p : Nat) : (empty : Heap α).get p = none := rfl

@[simp] theorem get_alloc_next (h : Heap α) (a : α) : (h.alloc a).get h.next = some a :=
  Function.update_self _ _ _

theorem get_alloc_ne {h : Heap α} {a : α} {p : Nat} (hp : p ≠ h.next) :
    (h.alloc a).get p = h.get p := Function.update_of_ne hp _ _

theorem get_alloc {h : Heap α} {a b : α} {p : Nat} (hp : h.get p = some b) :
    (h.alloc a).get p = some b := by rw [get_alloc_ne (ne_next hp), hp]

@[simp] theorem next_alloc (h : Heap α) (a : α) : (h.alloc a).next = h.next + 1 := rfl

@[simp] theorem get_free_self (h : Heap α) (p : Nat) : (h.free p).get p = none :=
  Function.update_self _ _ _

theorem get_free_ne {h : Heap α} {p q : Nat} (hq : q ≠ p) : (h.free p).get q = h.get q :=
  Function.update_of_ne hq _ _

theorem get_free {h : Heap α} {p q : Nat} {a : α} (h₁ : (h.free p).get q = some a) :
    h.get q = some a := by
  by_cases e : q = p
  · subst e; simp at h₁
  · rwa [get_free_ne e] at h₁

@[simp] theorem next_free (h : Heap α) (p : Nat) : (h.free p).next = h.next := rfl

theorem get_set_self {h : Heap α} {p : Nat} {a b : α} (hp : h.get p = some b) :
    (h.set p a).get p = some a := by simp [set, hp]

theorem get_set_ne {h : Heap α} {p q : Nat} {a : α} (hq : q ≠ p) :
    (h.set p a).get q = h.get q := by simp [set, hq]

@[simp] theorem next_set (h : Heap α) (p : Nat) (a : α) : (h.set p a).next = h.next := rfl

theorem isSome_set (h : Heap α) (p q : Nat) (a : α) :
    ((h.set p a).get q).isSome = (h.get q).isSome := by
  by_cases e : q = p
  · subst e; cases hq : h.get q <;> simp [set, hq]
  · rw [get_set_ne e]

theorem live_of_get {h : Heap α} {p : Nat} {a : α} (hp : h.get p = some a) : h.Live p := by
  simp [Live, hp]

/-! ### Later heaps -/

/-- `h'` comes after `h`: whatever is live in it was live before or was handed out since. -/
structure Later (h h' : Heap α) : Prop where
  next : h.next ≤ h'.next
  live : ∀ p, h'.Live p → h.Live p ∨ h.next ≤ p

theorem Later.refl (h : Heap α) : h.Later h := ⟨le_refl _, fun _ hp => Or.inl hp⟩

theorem Later.trans {h h' h'' : Heap α} (h₁ : h.Later h') (h₂ : h'.Later h'') : h.Later h'' where
  next := h₁.next.trans h₂.next
  live p hp := (h₂.live p hp).elim (h₁.live p) fun hle => Or.inr (h₁.next.trans hle)

theorem later_alloc (h : Heap α) (a : α) : h.Later (h.alloc a) where
  next := Nat.le_succ _
  live p hp := by
    by_cases e : p = h.next
    · exact Or.inr (le_of_eq e.symm)
    · rw [Live, get_alloc_ne e] at hp; exact Or.inl hp

theorem later_free (h : Heap α) (p : Nat) : h.Later (h.free p) where
  next := le_refl _
  live q hq := by
    obtain ⟨a, ha⟩ := Option.isSome_iff_exists.mp hq
    exact Or.inl (live_of_get (get_free ha))

theorem later_set (h : Heap α) (p : Nat) (a : α) : h.Later (h.set p a) where
  next := le_refl _
  live q hq := by rw [Live, isSome_set] at hq; exact Or.inl hq

/-! ### What a heap holds -/

/-- `s` is what `h` holds: each live object once, with its value. -/
def Holds (h : Heap α) (s : Multiset (Nat × α)) : Prop :=
  (s.map Prod.fst).Nodup ∧ ∀ p a, (p, a) ∈ s ↔ h.get p = some a

theorem holds_empty : (empty : Heap α).Holds 0 := ⟨by simp, fun p a => by simp⟩

namespace Holds

variable {h : Heap α} {s : Multiset (Nat × α)} {p : Nat} {a b : α}

theorem get (hh : h.Holds s) (hp : (p, a) ∈ s) : h.get p = some a := (hh.2 p a).mp hp

theorem get_head (hh : h.Holds ({(p, a)} + s)) : h.get p = some a := hh.get (by simp)

/-- Two heaps that hold the same objects differ in nothing but what they will hand out. -/
theorem get_eq {h' : Heap α} (hh : h.Holds s) (hh' : h'.Holds s) (p : Nat) : h'.get p = h.get p := by
  ext a
  rw [← hh.2, ← hh'.2]

/-- A heap that lost the objects of `r` and no others. -/
theorem get_sub {h' : Heap α} {r : Multiset (Nat × α)} (hh : h.Holds (r + s)) (hh' : h'.Holds s)
    [DecidablePred (· ∈ r.map Prod.fst)] (p : Nat) :
    h'.get p = if p ∈ r.map Prod.fst then none else h.get p := by
  have hn := hh.1
  rw [Multiset.map_add, Multiset.nodup_add] at hn
  ext a
  split
  · rename_i hp
    rw [← hh'.2]
    refine iff_of_false (fun ha => ?_) (fun e => by cases e)
    exact Multiset.disjoint_left.mp hn.2.2 hp (Multiset.mem_map_of_mem Prod.fst ha)
  · rename_i hp
    rw [← hh'.2, ← hh.2, Multiset.mem_add]
    refine ⟨Or.inr, fun ha => ha.resolve_left fun ha => hp ?_⟩
    exact Multiset.mem_map_of_mem Prod.fst ha

theorem live_iff (hh : h.Holds s) : h.Live p ↔ ∃ a, (p, a) ∈ s := by
  simp only [Live, Option.isSome_iff_exists, hh.2]

/-- The object at the head is not among the others. -/
theorem ne_head (hh : h.Holds ({(p, a)} + s)) {q : Nat} (hq : (q, b) ∈ s) : q ≠ p := by
  have hn := hh.1
  rw [Multiset.map_add, Multiset.map_singleton, Multiset.singleton_add, Multiset.nodup_cons] at hn
  rintro rfl
  exact hn.1 (Multiset.mem_map.mpr ⟨_, hq, rfl⟩)

theorem get_zero (hh : h.Holds 0) (p : Nat) : h.get p = none := by
  cases e : h.get p with
  | none => rfl
  | some a => exact absurd ((hh.2 p a).mpr e) (Multiset.notMem_zero _)

theorem not_live (hh : h.Holds 0) (p : Nat) : ¬ h.Live p := by
  rw [Live, hh.get_zero p]
  exact Bool.noConfusion

theorem alloc (hh : h.Holds s) (a : α) : (h.alloc a).Holds ({(h.next, a)} + s) := by
  have hne : ∀ q b, (q, b) ∈ s → q ≠ h.next := fun q b hq => ne_next (hh.get hq)
  refine ⟨?_, fun q b => ?_⟩
  · rw [Multiset.map_add, Multiset.map_singleton, Multiset.singleton_add, Multiset.nodup_cons]
    refine ⟨fun hm => ?_, hh.1⟩
    obtain ⟨⟨q, b⟩, hq, e⟩ := Multiset.mem_map.mp hm
    exact hne q b hq e
  · rw [Multiset.mem_add, Multiset.mem_singleton, Prod.mk.injEq]
    by_cases e : q = h.next
    · subst e
      rw [get_alloc_next, Option.some.injEq]
      exact ⟨fun hq => hq.elim (fun e => e.2.symm) fun hq => absurd rfl (hne _ _ hq),
        fun e => Or.inl ⟨rfl, e.symm⟩⟩
    · rw [get_alloc_ne e]
      exact ⟨fun hq => (hh.2 q b).mp (hq.resolve_left fun hx => e hx.1),
        fun hq => Or.inr ((hh.2 q b).mpr hq)⟩

theorem free (hh : h.Holds ({(p, a)} + s)) : (h.free p).Holds s := by
  have hn := hh.1
  rw [Multiset.map_add, Multiset.map_singleton, Multiset.singleton_add, Multiset.nodup_cons] at hn
  refine ⟨hn.2, fun q b => ?_⟩
  by_cases e : q = p
  · subst e
    rw [get_free_self]
    exact ⟨fun hq => absurd rfl (hh.ne_head hq), fun hq => by cases hq⟩
  · rw [get_free_ne e, ← hh.2, Multiset.mem_add, Multiset.mem_singleton, Prod.mk.injEq]
    exact ⟨Or.inr, fun hq => hq.resolve_left fun hx => e hx.1⟩

theorem set (hh : h.Holds ({(p, a)} + s)) (b : α) : (h.set p b).Holds ({(p, b)} + s) := by
  refine ⟨by simpa using hh.1, fun q c => ?_⟩
  rw [Multiset.mem_add, Multiset.mem_singleton, Prod.mk.injEq]
  by_cases e : q = p
  · subst e
    rw [get_set_self hh.get_head, Option.some.injEq]
    exact ⟨fun hq => hq.elim (fun e => e.2.symm) fun hq => absurd rfl (hh.ne_head hq),
      fun e => Or.inl ⟨rfl, e.symm⟩⟩
  · rw [get_set_ne e, ← hh.2, Multiset.mem_add, Multiset.mem_singleton, Prod.mk.injEq]
    exact ⟨fun hq => Or.inr (hq.resolve_left fun hx => e hx.1),
      fun hq => Or.inr (hq.resolve_left fun hx => e hx.1)⟩

end Holds

end Heap

end Store
