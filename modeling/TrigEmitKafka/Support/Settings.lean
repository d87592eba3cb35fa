import Mathlib.Data.List.Nodup
import TrigEmitKafka.Support.Slots

/-!
# Support — settings of which the last one counts

A list of settings, oldest first, is read by property: the last setting of a property counts, and a
property may have several names (`canon`).

`renew` and `forget` keep such a list in the order of the settings.  An array replaces in place
(`Slots.put`) and fills holes with its last element (`Slots.swapRemove`), which moves a setting
past others.  `Alike` says that two lists agree on the order within each property; `alike_put` and
`alike_swapRemove` say when an array keeps up: when nothing moves past another name of its property.
-/

namespace Settings

open Slots (firstIdx firstIdx_some firstIdx_none put put_eq_set put_eq_append swapRemove)

variable {K V α : Type} [DecidableEq α] {canon : K → α}

/-! ### The last setting -/

/-- What the last setting of the property `q` sets it to. -/
def lastSet (canon : K → α) (q : α) : List (K × V) → Option V
  | []     => none
  | x :: l => (lastSet canon q l).or (if canon x.1 = q then some x.2 else none)

theorem lastSet_append (q : α) (l l' : List (K × V)) :
    lastSet canon q (l ++ l') = (lastSet canon q l').or (lastSet canon q l) := by
  induction l with
  | nil => simp [lastSet]
  | cons x l ih => rw [List.cons_append, lastSet, lastSet, ih, Option.or_assoc]

theorem lastSet_eq_none_iff {q : α} {l : List (K × V)} :
    lastSet canon q l = none ↔ ∀ x ∈ l, canon x.1 ≠ q := by
  induction l with
  | nil => simp [lastSet]
  | cons x l ih =>
      rw [lastSet, Option.or_eq_none_iff, ih, List.forall_mem_cons, and_comm]
      refine and_congr_left fun _ => ?_
      split <;> simp [*]

/-! ### The settings of a property -/

/-- The settings of the property `q`, in order. -/
def ofProperty (canon : K → α) (q : α) (l : List (K × V)) : List (K × V) :=
  l.filter fun x => decide (canon x.1 = q)

@[simp] theorem ofProperty_append (q : α) (l l' : List (K × V)) :
    ofProperty canon q (l ++ l') = ofProperty canon q l ++ ofProperty canon q l' :=
  List.filter_append ..

theorem ofProperty_eq_nil {q : α} {l : List (K × V)} (h : ∀ x ∈ l, canon x.1 ≠ q) :
    ofProperty canon q l = [] :=
  List.filter_eq_nil_iff.mpr fun x hx => by simpa using h x hx

theorem lastSet_ofProperty (q : α) (l : List (K × V)) :
    lastSet canon q (ofProperty canon q l) = lastSet canon q l := by
  induction l with
  | nil => rfl
  | cons x l ih =>
      by_cases h : canon x.1 = q
      · rw [ofProperty, List.filter_cons_of_pos (by simpa using h), lastSet, lastSet]
        exact congrArg (Option.or · _) ih
      · rw [ofProperty, List.filter_cons_of_neg (by simpa using h), lastSet, if_neg h, Option.or_none]
        exact ih

/-- Within each property the two lists have the same settings in the same order. -/
def Alike (canon : K → α) (l l' : List (K × V)) : Prop :=
  ∀ q, ofProperty canon q l = ofProperty canon q l'

theorem Alike.lastSet {l l' : List (K × V)} (h : Alike canon l l') (q : α) :
    lastSet canon q l = lastSet canon q l' := by
  rw [← lastSet_ofProperty, h q, lastSet_ofProperty]

/-! ### In the order of the settings -/

variable [DecidableEq K]

/-- What was set before, without the setting of `k`. -/
def forget (k : K) (l : List (K × V)) : List (K × V) := l.filter fun x => decide (x.1 ≠ k)

/-- `k` is set to `v`, last. -/
def renew (k : K) (v : V) (l : List (K × V)) : List (K × V) := forget k l ++ [(k, v)]

theorem forget_eq_self {k : K} {l : List (K × V)} (h : ∀ x ∈ l, x.1 ≠ k) : forget k l = l :=
  List.filter_eq_self.mpr fun x hx => by simpa using h x hx

/-- Forgetting keeps the order of the others. -/
theorem ofProperty_forget (k : K) (q : α) (l : List (K × V)) :
    ofProperty canon q (forget k l) = forget k (ofProperty canon q l) :=
  List.filter_comm _ _ l

theorem Alike.forget {l l' : List (K × V)} (h : Alike canon l l') (k : K) :
    Alike canon (forget k l) (forget k l') := by
  intro q
  rw [ofProperty_forget, ofProperty_forget, h q]

/-- The one setting of `k` is the one that is forgotten. -/
theorem forget_split {k : K} {w : V} {a b : List (K × V)}
    (hl : ((a ++ (k, w) :: b).map Prod.fst).Nodup) : forget k (a ++ (k, w) :: b) = a ++ b := by
  have hne : ∀ x ∈ a ++ b, x.1 ≠ k := by
    rw [List.map_append, List.map_cons, List.nodup_middle, ← List.map_append] at hl
    intro x hx e
    exact (List.nodup_cons.mp hl).1 (List.mem_map.mpr ⟨x, hx, e⟩)
  have hself := forget_eq_self hne
  rw [Settings.forget, List.filter_append] at hself ⊢
  rw [List.filter_cons_of_neg (by simp), hself]

/-! ### In the order of an array -/

/-- An element and what is before and after it. -/
theorem split_of_getElem? {β : Type} {l : List β} {i : Nat} {x : β} (h : l[i]? = some x) :
    l = l.take i ++ x :: l.drop (i + 1) ∧ (l.take i).length = i := by
  obtain ⟨hi, rfl⟩ := List.getElem?_eq_some_iff.mp h
  refine ⟨?_, List.length_take_of_le (Nat.le_of_lt hi)⟩
  rw [List.getElem_cons_drop, List.take_append_drop]

/-- What is stored after `k`. -/
def following (k : K) (l : List (K × V)) : List (K × V) :=
  (l.dropWhile fun x => decide (x.1 ≠ k)).tail

theorem following_split {k : K} {w : V} {a b : List (K × V)}
    (hl : ((a ++ (k, w) :: b).map Prod.fst).Nodup) : following k (a ++ (k, w) :: b) = b := by
  have ha : ∀ x ∈ a, decide (x.1 ≠ k) = true := by
    rw [List.map_append, List.map_cons, List.nodup_middle] at hl
    intro x hx
    refine decide_eq_true fun e => (List.nodup_cons.mp hl).1 ?_
    exact List.mem_append_left _ (List.mem_map.mpr ⟨x, hx, e⟩)
  rw [following, List.dropWhile_append_of_pos ha, List.dropWhile_cons_of_neg (by simp), List.tail_cons]

/-- No other name of its property is stored after `k`. -/
def PutKeeps (canon : K → α) (k : K) (l : List (K × V)) : Prop :=
  ∀ y ∈ following k l, canon y.1 ≠ canon k

/-- No name of the last setting's property is stored between `k` and it. -/
def RemoveKeeps (canon : K → α) (k : K) (l : List (K × V)) : Prop :=
  ∀ m ∈ (following k l).getLast?, ∀ y ∈ (following k l).dropLast, canon y.1 ≠ canon m.1

instance (canon : K → α) (k : K) (l : List (K × V)) : Decidable (PutKeeps canon k l) :=
  inferInstanceAs (Decidable (∀ y ∈ following k l, canon y.1 ≠ canon k))

instance (canon : K → α) (k : K) (l : List (K × V)) : Decidable (RemoveKeeps canon k l) :=
  inferInstanceAs (Decidable (∀ m ∈ (following k l).getLast?, ∀ y ∈ (following k l).dropLast,
    canon y.1 ≠ canon m.1))

/-- **Replacement in place** keeps up, if no other name of the property is stored after. -/
theorem alike_put {l l' : List (K × V)} (hl : (l.map Prod.fst).Nodup) (h : Alike canon l l') {k : K}
    (hk : PutKeeps canon k l) (v : V) : Alike canon (put k v l) (renew k v l') := by
  intro q
  rw [renew, ofProperty_append, ← (h.forget k) q]
  cases hf : firstIdx (fun p => decide (p.1 = k)) 0 l with
  | none =>
      have hne : ∀ x ∈ l, x.1 ≠ k := fun x hx => by simpa using firstIdx_none hf x hx
      rw [put_eq_append hf, forget_eq_self hne, ofProperty_append]
  | some x =>
      obtain ⟨i, k', w⟩ := x
      obtain ⟨-, hi, hk'⟩ := firstIdx_some hf
      obtain rfl : k' = k := by simpa using hk'
      obtain ⟨hsplit, hlen⟩ := split_of_getElem? (show l[i]? = some (k', w) from hi)
      rw [put_eq_set hf]
      generalize l.take i = a, l.drop (i + 1) = b at hsplit hlen
      subst hsplit hlen
      rw [forget_split hl, List.set_append_right _ _ (Nat.le_refl _), Nat.sub_self,
        List.set_cons_zero, ofProperty_append, ofProperty_append, List.append_assoc]
      refine congrArg (ofProperty canon q a ++ ·) ?_
      rw [← List.singleton_append, ofProperty_append]
      by_cases hq : canon k' = q
      · rw [ofProperty_eq_nil (l := b) fun y hy => hq ▸ hk y (by rwa [following_split hl]),
          List.append_nil, List.nil_append]
      · have hnil : ofProperty canon q [(k', v)] = [] :=
          ofProperty_eq_nil fun y hy => by rw [List.mem_singleton.mp hy]; exact hq
        rw [hnil, List.append_nil, List.nil_append]

theorem swapRemove_split {β : Type} (a b : List β) (x m : β) :
    swapRemove a.length (a ++ x :: (b ++ [m])) = a ++ m :: b := by
  have hlast : (a ++ x :: (b ++ [m])).getLast? = some m := by
    rw [← List.cons_append, ← List.append_assoc, List.getLast?_concat]
  have hset : (a ++ x :: (b ++ [m])).set a.length m = (a ++ m :: b) ++ [m] := by
    rw [List.set_append_right _ _ (Nat.le_refl _), Nat.sub_self, List.set_cons_zero,
      List.append_assoc, List.cons_append]
  rw [swapRemove, hlast]
  show ((a ++ x :: (b ++ [m])).set a.length m).dropLast = _
  rw [hset, List.dropLast_concat]

theorem swapRemove_last {β : Type} (a : List β) (x : β) : swapRemove a.length (a ++ [x]) = a := by
  have hset : (a ++ [x]).set a.length x = a ++ [x] := by
    rw [List.set_append_right _ _ (Nat.le_refl _), Nat.sub_self, List.set_cons_zero]
  rw [swapRemove, List.getLast?_concat]
  show ((a ++ [x]).set a.length x).dropLast = _
  rw [hset, List.dropLast_concat]

/-- **Filling the hole with the last element** keeps up, if no name of its property is between. -/
theorem alike_swapRemove {l l' : List (K × V)} (hl : (l.map Prod.fst).Nodup) (h : Alike canon l l')
    {k : K} (hk : RemoveKeeps canon k l) {i : Nat} {w : V} (hi : l[i]? = some (k, w)) :
    Alike canon (swapRemove i l) (forget k l') := by
  intro q
  rw [← (h.forget k) q]
  obtain ⟨hsplit, hlen⟩ := split_of_getElem? hi
  generalize l.take i = a, l.drop (i + 1) = b at hsplit hlen
  subst hsplit hlen
  rw [forget_split hl]
  rcases List.eq_nil_or_concat b with rfl | ⟨b, m, rfl⟩
  · rw [swapRemove_last, List.append_nil]
  · rw [List.concat_eq_append] at hk hl ⊢
    rw [swapRemove_split, ofProperty_append, ofProperty_append]
    refine congrArg (ofProperty canon q a ++ ·) ?_
    rw [← List.singleton_append, ofProperty_append, ofProperty_append]
    have hbetween : ∀ y ∈ b, canon y.1 ≠ canon m.1 := by
      rw [RemoveKeeps, following_split hl] at hk
      exact fun y hy => hk m (by simp) y (by simpa using hy)
    by_cases hq : canon m.1 = q
    · rw [ofProperty_eq_nil (l := b) fun y hy => hq ▸ hbetween y hy, List.append_nil,
        List.nil_append]
    · have hnil : ofProperty canon q [m] = [] :=
        ofProperty_eq_nil fun y hy => by rw [List.mem_singleton.mp hy]; exact hq
      rw [hnil, List.append_nil, List.nil_append]

end Settings
