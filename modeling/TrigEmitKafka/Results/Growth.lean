import TrigEmitKafka.Rules.Helpers
import TrigEmitKafka.Source.Commands

/-!
# Results — growing an array

`Growing` is the life of one of the three arrays, of elements of `itemsize` bytes: it grows, with at
most one insertion after each growth, loses elements, and is freed and used again, in any order and
whatever the allocator answers, while other memory changes.

* `growth_never_wraps`: at every point of it, no size `kafka_table_grow` computes wraps, the memory
  is `capacity * itemsize` bytes, a growth that succeeds leaves room for one more element, and one
  that fails leaves everything.
-/

namespace TrigEmit

open Conc (exec exec_op exec_ret)
open Slots (length_swapRemove swapRemove)
open Store (Heap)

variable {α : Type} {itemsize : Nat} {a : CArray α} {T T' : Tab} {d d' : Flow} {t : Nat}
  {course : Course}

/-- The memory of the array is as large as its capacity says. -/
def CArray.Allocated (itemsize : Nat) (a : CArray α) (arrays : Heap Nat) : Prop :=
  ∀ p, a.ptr = some p → arrays.get p = some (a.capacity * itemsize)

/-- **What a growth does**: nothing where there is room; else it fails and changes nothing, or the
array has other memory. -/
theorem grow_cases {r : Option (CArray α)}
    (he : exec iface t (kafkaTableGrow a itemsize) course T d = some (r, T', d')) :
    a.items.length < a.capacity ∧ r = some a ∧ T' = T ∨
      a.capacity ≤ a.items.length ∧ (r = none ∧ T' = T ∨
        sizeT (a.nextCapacity * itemsize) ≤ ptrdiffMax ∧
          ∃ p, r = some { a with ptr := some p, capacity := a.nextCapacity } ∧
            T'.arrays.get p = some (sizeT (a.nextCapacity * itemsize))) := by
  unfold kafkaTableGrow at he
  by_cases hroom : a.items.length < a.capacity
  · rw [if_pos hroom] at he
    obtain ⟨rfl, rfl, -⟩ := exec_ret he
    exact Or.inl ⟨hroom, rfl, rfl⟩
  · rw [if_neg hroom] at he
    refine Or.inr ⟨Nat.le_of_not_lt hroom, ?_⟩
    obtain ⟨d₁, ans, x, T₁, d₂, rest, -, hact, hend, -, -⟩ := exec_op he
    cases ans with
    | queueFull => cases hact
    | fail err text =>
        cases hact
        obtain ⟨rfl, rfl, -⟩ := exec_ret hend
        exact Or.inl ⟨rfl, rfl⟩
    | ok =>
        obtain ⟨hle, e⟩ := Option.ite_none_right_eq_some.mp hact
        cases e
        obtain ⟨rfl, rfl, -⟩ := exec_ret hend
        exact Or.inr ⟨hle, _, rfl, Heap.get_alloc_next _ _⟩

/-- The life of an array. -/
inductive Growing (itemsize : Nat) : CArray α → Tab → Prop where
  | empty (T : Tab) : Growing itemsize .null T
  /-- A growth, and at most one insertion. -/
  | grown {a a' : CArray α} {T T' : Tab} {d d' : Flow} {t : Nat} {course : Course}
      (new : Option α) : Growing itemsize a T →
      exec iface t (kafkaTableGrow a itemsize) course T d = some (some a', T', d') →
      Growing itemsize { a' with items := a'.items ++ new.toList } T'
  | refused {a : CArray α} {T T' : Tab} {d d' : Flow} {t : Nat} {course : Course} :
      Growing itemsize a T →
      exec iface t (kafkaTableGrow a itemsize) course T d = some (none, T', d') →
      Growing itemsize a T'
  | replaced {a : CArray α} {T : Tab} (i : Nat) (x : α) : Growing itemsize a T →
      Growing itemsize { a with items := a.items.set i x } T
  | removed {a : CArray α} {T : Tab} (i : Nat) (hi : i < a.items.length) :
      Growing itemsize a T → Growing itemsize { a with items := swapRemove i a.items } T
  /-- The count is set to 0, and the memory kept. -/
  | emptied {a : CArray α} {T : Tab} : Growing itemsize a T →
      Growing itemsize { a with items := [] } T
  /-- The memory is freed. -/
  | reset {a : CArray α} {T T' : Tab} {d d' : Flow} {t : Nat} {course : Course} :
      Growing itemsize a T →
      exec iface t (safeFreeArray a.ptr) course T d = some ((), T', d') →
      Growing itemsize (.null : CArray α) T'
  /-- Other memory changes. -/
  | elsewhere {a : CArray α} {T T' : Tab} : Growing itemsize a T →
      (∀ p, a.ptr = some p → T'.arrays.get p = T.arrays.get p) → Growing itemsize a T'

/-- No size a growth computes wraps. -/
theorem CArray.Ok.sizes (h : a.Ok itemsize) (hs : 0 < itemsize) (hs' : itemsize ≤ paramSize) :
    sizeT (a.capacity * 2) = a.capacity * 2 ∧
      sizeT (a.nextCapacity * itemsize) = a.nextCapacity * itemsize ∧
      (a.capacity ≤ a.items.length → a.items.length < a.nextCapacity) := by
  obtain ⟨hdouble, hbytes⟩ := sizeT_double hs h.bound
  refine ⟨hdouble, ?_, ?_⟩
  · unfold CArray.nextCapacity
    by_cases h0 : a.capacity = 0
    · rw [if_pos h0]
      unfold paramSize at hs'
      exact Nat.mod_eq_of_lt (by unfold initialSlots; omega)
    · rw [if_neg h0, hdouble]
      exact hbytes
  · intro hfull
    have hle := h.length
    unfold CArray.nextCapacity
    by_cases h0 : a.capacity = 0
    · rw [if_pos h0]
      unfold initialSlots
      omega
    · rw [if_neg h0, hdouble]
      omega

/-- **A growth keeps the array well formed.** -/
theorem CArray.Ok.grow (h : a.Ok itemsize) (ha : a.Allocated itemsize T.arrays)
    (hs : 0 < itemsize) (hs' : itemsize ≤ paramSize) {a' : CArray α}
    (he : exec iface t (kafkaTableGrow a itemsize) course T d = some (some a', T', d')) :
    a'.items = a.items ∧ a'.items.length < a'.capacity ∧ a'.Ok itemsize ∧
      a'.Allocated itemsize T'.arrays := by
  obtain ⟨hroom, e, rfl⟩ | ⟨hfull, ⟨e, -⟩ | ⟨hle, p, e, hget⟩⟩ := grow_cases he
  · obtain rfl := Option.some.inj e
    exact ⟨rfl, hroom, h, ha⟩
  · cases e
  · obtain rfl := Option.some.inj e
    obtain ⟨-, hbytes, hmore⟩ := h.sizes hs hs'
    rw [hbytes] at hle hget
    have hlt := hmore hfull
    refine ⟨rfl, hlt, ⟨Nat.le_of_lt hlt, ?_, hle⟩, ?_⟩
    · exact ⟨fun e => (by cases e), fun e => absurd e (Nat.ne_of_gt (Nat.zero_lt_of_lt hlt))⟩
    · intro q hq
      rw [← Option.some.inj hq]
      exact hget

/-- The array is well formed throughout. -/
theorem Growing.ok (hs : 0 < itemsize) (hs' : itemsize ≤ paramSize) (h : Growing itemsize a T) :
    a.Ok itemsize ∧ a.Allocated itemsize T.arrays := by
  induction h with
  | empty T => exact ⟨CArray.ok_null _, fun p hp => by cases hp⟩
  | grown new _ he ih =>
      obtain ⟨-, hlt, hok, halloc⟩ := ih.1.grow ih.2 hs hs' he
      refine ⟨⟨?_, hok.ptr, hok.bound⟩, halloc⟩
      cases new with
      | none => simpa using hok.length
      | some x => simpa using Nat.succ_le_of_lt hlt
  | refused _ he ih =>
      obtain ⟨-, e, -⟩ | ⟨-, ⟨-, rfl⟩ | ⟨-, p, e, -⟩⟩ := grow_cases he
      · cases e
      · exact ih
      · cases e
  | replaced i x _ ih =>
      refine ⟨⟨?_, ih.1.ptr, ih.1.bound⟩, ih.2⟩
      rw [List.length_set]
      exact ih.1.length
  | removed i hi _ ih =>
      refine ⟨⟨?_, ih.1.ptr, ih.1.bound⟩, ih.2⟩
      exact (Nat.le_of_succ_le (length_swapRemove hi).le).trans ih.1.length
  | emptied _ ih => exact ⟨⟨Nat.zero_le _, ih.1.ptr, ih.1.bound⟩, ih.2⟩
  | reset _ _ _ => exact ⟨CArray.ok_null _, fun p hp => by cases hp⟩
  | elsewhere _ hsame ih =>
      refine ⟨ih.1, ?_⟩
      intro p hp
      rw [hsame p hp]
      exact ih.2 p hp

/-- **Growth never wraps.**  At every point of an array's life its count is at most its capacity and
its memory `capacity * itemsize` bytes; neither size that `kafka_table_grow` computes wraps; a growth
that succeeds keeps the elements and leaves room for one more in memory of the new capacity; and one
that fails leaves the array and its memory. -/
theorem growth_never_wraps (hs : itemsize = topicSize ∨ itemsize = paramSize)
    (h : Growing itemsize a T) :
    a.items.length ≤ a.capacity ∧ (a.ptr = none ↔ a.capacity = 0) ∧
      a.Allocated itemsize T.arrays ∧
      sizeT (a.capacity * 2) = a.capacity * 2 ∧
      sizeT (a.nextCapacity * itemsize) = a.nextCapacity * itemsize ∧
      (∀ t course d a' T' d',
        exec iface t (kafkaTableGrow a itemsize) course T d = some (some a', T', d') →
        a'.items = a.items ∧ a'.items.length < a'.capacity ∧ a'.Allocated itemsize T'.arrays) ∧
      ∀ t course d T' d',
        exec iface t (kafkaTableGrow a itemsize) course T d = some (none, T', d') → T' = T := by
  have hpos : 0 < itemsize ∧ itemsize ≤ paramSize := by
    rcases hs with rfl | rfl
    · exact ⟨by decide, by decide⟩
    · exact ⟨by decide, by decide⟩
  obtain ⟨hok, halloc⟩ := h.ok hpos.1 hpos.2
  obtain ⟨hdouble, hbytes, -⟩ := hok.sizes hpos.1 hpos.2
  refine ⟨hok.length, hok.ptr, halloc, hdouble, hbytes, ?_, ?_⟩
  · intro t course d a' T' d' he
    obtain ⟨hitems, hlt, -, halloc'⟩ := hok.grow halloc hpos.1 hpos.2 he
    exact ⟨hitems, hlt, halloc'⟩
  · intro t course d T' d' he
    obtain ⟨-, e, -⟩ | ⟨-, ⟨-, hT⟩ | ⟨-, p, e, -⟩⟩ := grow_cases he
    · cases e
    · exact hT
    · cases e

/-- The elements inserted one after the other, each after a growth that the allocator grants. -/
def insertAll (itemsize : Nat) : List α → CArray α → Tab → Flow → Option (CArray α × Tab)
  | [],      a, T, _ => some (a, T)
  | x :: xs, a, T, d =>
      let course := if a.items.length < a.capacity then [] else [.ans .ok]
      (exec iface 0 (kafkaTableGrow a itemsize) course T d).bind fun r => r.1.bind fun a' =>
        insertAll itemsize xs { a' with items := a'.items ++ [x] } r.2.1 r.2.2

/-- Insertions are a part of an array's life. -/
theorem Growing.insertAll {xs : List α} {a' : CArray α} (h : Growing itemsize a T)
    (he : TrigEmit.insertAll itemsize xs a T d = some (a', T')) : Growing itemsize a' T' := by
  induction xs generalizing a T d with
  | nil =>
      cases he
      exact h
  | cons x xs ih =>
      obtain ⟨⟨r, T₁, d₁⟩, hgrow, hrest⟩ := Option.bind_eq_some_iff.mp he
      obtain ⟨a₁, rfl, hrest⟩ := Option.bind_eq_some_iff.mp hrest
      exact ih (h.grown (some x) hgrow) hrest

/-- One insertion more than the first memory takes: the memory has doubled. -/
theorem doubled_never_wraps : ∃ (a : CArray Nat) (T : Tab), Growing topicSize a T ∧
    a.items = List.range 9 ∧ a.capacity = 2 * initialSlots ∧ a.Allocated topicSize T.arrays := by
  have hrun : (insertAll topicSize (List.range (initialSlots + 1)) .null Tab.init Flow.init).map
      (fun x => (x.1.items, x.1.capacity)) = some (List.range 9, 2 * initialSlots) := by
    decide +kernel
  obtain ⟨⟨a, T⟩, he, e⟩ := Option.map_eq_some_iff.mp hrun
  obtain ⟨hitems, hcap⟩ := Prod.mk.inj e
  have h := (Growing.empty Tab.init).insertAll he
  exact ⟨a, T, h, hitems, hcap, (growth_never_wraps (Or.inl rfl) h).2.2.1⟩

end TrigEmit
