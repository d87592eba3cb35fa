import Mathlib.Data.List.Perm.Basic
import Mathlib.Data.List.Nodup
import Mathlib.Data.Finmap
import Mathlib.Logic.Function.Basic

/-!
# Support — an unordered array of keyed slots

An array whose order means nothing: the linear search takes the first hit (`firstIdx`), a new
element goes to the end, one with a known key is replaced in place (`put`), and the last element
fills the hole a removed one leaves (`swapRemove`).

`toFinmap` is the finite map an array stands for, by its look-up `toMap`.  Where keys are unique it
does not depend on the order (`toMap_perm`), and the operations act on it as insertion and erasure.
-/

namespace Slots

variable {α K V : Type}

/-! ### The search -/

/-- The first element of `l` with `f a`, with its index counted from `i`. -/
def firstIdx (f : α → Bool) : Nat → List α → Option (Nat × α)
  | _, []     => none
  | i, a :: l => if f a then some (i, a) else firstIdx f (i + 1) l

theorem firstIdx_some {f : α → Bool} {l : List α} {i j : Nat} {a : α}
    (h : firstIdx f i l = some (j, a)) : i ≤ j ∧ l[j - i]? = some a ∧ f a = true := by
  induction l generalizing i with
  | nil => cases h
  | cons b l ih =>
      rw [firstIdx] at h
      cases hb : f b with
      | true =>
          rw [hb, if_pos rfl] at h
          cases h
          exact ⟨Nat.le_refl _, by simp, hb⟩
      | false =>
          rw [hb, if_neg (by decide)] at h
          obtain ⟨hij, hl, ha⟩ := ih h
          refine ⟨by omega, ?_, ha⟩
          rw [show j - i = j - (i + 1) + 1 by omega]
          exact hl

theorem firstIdx_none {f : α → Bool} {l : List α} {i : Nat} (h : firstIdx f i l = none) :
    ∀ a ∈ l, f a = false := by
  induction l generalizing i with
  | nil => exact fun a ha => nomatch ha
  | cons b l ih =>
      rw [firstIdx] at h
      cases hb : f b with
      | true => rw [hb, if_pos rfl] at h; cases h
      | false =>
          rw [hb, if_neg (by decide)] at h
          intro a ha
          rcases List.mem_cons.mp ha with rfl | ha
          · exact hb
          · exact ih h a ha

/-- The search sees an element only through the test. -/
theorem firstIdx_map {β : Type} (g : β → α) (f : α → Bool) (i : Nat) (l : List β) :
    firstIdx f i (l.map g) = (firstIdx (fun b => f (g b)) i l).map (Prod.map id g) := by
  induction l generalizing i with
  | nil => rfl
  | cons b l ih =>
      simp only [List.map_cons, firstIdx]
      split
      · rfl
      · exact ih (i + 1)

theorem set_eq_self {l : List α} {i : Nat} {a : α} (h : l[i]? = some a) : l.set i a = l := by
  obtain ⟨hi, rfl⟩ := List.getElem?_eq_some_iff.mp h
  exact List.set_getElem_self hi

/-! ### Removal -/

/-- The last element fills the hole at `i`. -/
def swapRemove (i : Nat) (l : List α) : List α :=
  match l.getLast? with
  | none   => l
  | some x => (l.set i x).dropLast

theorem swapRemove_perm {i : Nat} {l : List α} (hi : i < l.length) :
    (swapRemove i l).Perm (l.eraseIdx i) := by
  have hne : l ≠ [] := fun e => by simp [e] at hi
  have hset : l.set i (l.getLast hne) ≠ [] := by simpa [List.set_eq_nil_iff] using hne
  have hlast : (l.set i (l.getLast hne)).getLast hset = l.getLast hne := by
    rw [List.getLast_eq_getElem, List.getElem_set]
    split
    · rfl
    · simp [List.getLast_eq_getElem]
  have hsplit := List.dropLast_append_getLast hset
  rw [hlast] at hsplit
  have h₁ : (l.getLast hne :: (l.set i (l.getLast hne)).dropLast).Perm
      (l.getLast hne :: l.eraseIdx i) := by
    refine (List.perm_append_singleton _ _).symm.trans ?_
    rw [hsplit]
    exact List.set_perm_cons_eraseIdx hi _
  rw [swapRemove, List.getLast?_eq_some_getLast hne]
  exact (List.perm_cons _).mp h₁

/-- What was removed, and the rest. -/
theorem perm_cons_swapRemove {i : Nat} {l : List α} (hi : i < l.length) :
    l.Perm (l[i] :: swapRemove i l) :=
  ((List.getElem_cons_eraseIdx_perm hi).symm).trans ((swapRemove_perm hi).symm.cons _)

theorem length_swapRemove {i : Nat} {l : List α} (hi : i < l.length) :
    (swapRemove i l).length + 1 = l.length := by
  have h := (perm_cons_swapRemove hi).length_eq
  simpa using h.symm

theorem map_swapRemove {β : Type} (f : α → β) (i : Nat) (l : List α) :
    (swapRemove i l).map f = swapRemove i (l.map f) := by
  unfold swapRemove
  rw [List.getLast?_map]
  cases l.getLast? with
  | none => rfl
  | some x => simp [List.map_dropLast, List.map_set]

theorem mem_of_mem_swapRemove {i : Nat} {l : List α} (hi : i < l.length) {a : α}
    (ha : a ∈ swapRemove i l) : a ∈ l :=
  (perm_cons_swapRemove hi).mem_iff.mpr (List.mem_cons_of_mem _ ha)

/-! ### The map an array stands for -/

variable [DecidableEq K]

/-- The value at the first slot of the key. -/
def toMap : List (K × V) → K → Option V
  | [],          _ => none
  | (k, v) :: l, x => if k = x then some v else toMap l x

/-- A slot of the key is replaced in place, or one is added at the end. -/
def put (k : K) (v : V) : List (K × V) → List (K × V)
  | []            => [(k, v)]
  | (k', v') :: l => if k' = k then (k, v) :: l else (k', v') :: put k v l

/-- Replacement, at the index the search gives. -/
theorem put_eq_set {k : K} {v w : V} {l : List (K × V)} {i : Nat} {k' : K}
    (h : firstIdx (fun p => decide (p.1 = k)) 0 l = some (i, (k', w))) :
    put k v l = l.set i (k, v) := by
  have key : ∀ (l : List (K × V)) (n i : Nat) (a : K × V),
      firstIdx (fun p => decide (p.1 = k)) n l = some (i, a) → put k v l = l.set (i - n) (k, v) := by
    intro l
    induction l with
    | nil => intro n i a h; cases h
    | cons p l ih =>
        intro n i a h
        obtain ⟨k', v'⟩ := p
        rw [firstIdx] at h
        by_cases e : k' = k
        · rw [if_pos (by simpa using e)] at h
          cases h
          simp [put, e]
        · rw [if_neg (by simpa using e)] at h
          have hle := (firstIdx_some h).1
          rw [put, if_neg e, ih _ _ _ h, show i - n = i - (n + 1) + 1 by omega]
          rfl
  simpa using key l 0 i _ h

/-- A new key goes to the end. -/
theorem put_eq_append {k : K} {v : V} {l : List (K × V)}
    (h : firstIdx (fun p => decide (p.1 = k)) 0 l = none) : put k v l = l ++ [(k, v)] := by
  have hk := firstIdx_none h
  clear h
  induction l with
  | nil => rfl
  | cons p l ih =>
      obtain ⟨k', v'⟩ := p
      have hne : k' ≠ k := by simpa using hk _ List.mem_cons_self
      rw [put, if_neg hne, ih fun a ha => hk a (List.mem_cons_of_mem _ ha)]
      rfl

theorem mem_put {k : K} {v : V} {l : List (K × V)} {x : K × V} (h : x ∈ put k v l) :
    x = (k, v) ∨ x ∈ l := by
  cases hf : firstIdx (fun p => decide (p.1 = k)) 0 l with
  | none =>
      rw [put_eq_append hf] at h
      rcases List.mem_append.mp h with h | h
      · exact Or.inr h
      · exact Or.inl (List.mem_singleton.mp h)
  | some p =>
      obtain ⟨i, k', w⟩ := p
      rw [put_eq_set hf] at h
      exact (List.mem_or_eq_of_mem_set h).symm

/-- **Insertion and replacement** update the map at the key. -/
theorem toMap_put (k : K) (v : V) (l : List (K × V)) :
    toMap (put k v l) = Function.update (toMap l) k (some v) := by
  funext x
  induction l with
  | nil =>
      by_cases e : x = k
      · subst e; simp [put, toMap]
      · simp [put, toMap, Function.update_of_ne e, Ne.symm e]
  | cons p l ih =>
      obtain ⟨k', v'⟩ := p
      by_cases hk : k' = k
      · subst hk
        by_cases e : x = k'
        · subst e; simp [put, toMap]
        · simp [put, toMap, Function.update_of_ne e, Ne.symm e]
      · by_cases e : x = k
        · subst e; simp [put, toMap, hk, ih]
        · rw [Function.update_of_ne e] at ih ⊢
          simp only [put, if_neg hk, toMap, ih]

theorem toMap_eq_some {l : List (K × V)} (hl : (l.map Prod.fst).Nodup) {k : K} {v : V} :
    toMap l k = some v ↔ (k, v) ∈ l := by
  induction l with
  | nil => simp [toMap]
  | cons p l ih =>
      obtain ⟨k', v'⟩ := p
      obtain ⟨hk, hn⟩ := List.nodup_cons.mp hl
      rw [toMap, List.mem_cons, Prod.mk.injEq]
      by_cases e : k' = k
      · subst e
        rw [if_pos rfl, Option.some.injEq]
        refine ⟨fun e => Or.inl ⟨rfl, e.symm⟩, fun h => ?_⟩
        rcases h with h | h
        · exact h.2.symm
        · exact absurd (List.mem_map_of_mem (f := Prod.fst) h) hk
      · rw [if_neg e, ih hn]
        exact ⟨Or.inr, fun h => h.resolve_left fun h => e h.1.symm⟩

/-- **The order does not matter** where keys are unique. -/
theorem toMap_perm {l l' : List (K × V)} (hl : (l.map Prod.fst).Nodup) (hp : l.Perm l') :
    toMap l = toMap l' := by
  funext k
  refine Option.ext fun v => ?_
  rw [toMap_eq_some hl, toMap_eq_some ((hp.map _).nodup_iff.mp hl), hp.mem_iff]

/-- **Removal** deletes the key from the map. -/
theorem toMap_swapRemove {l : List (K × V)} (hl : (l.map Prod.fst).Nodup) {i : Nat} {k : K} {v : V}
    (hi : l[i]? = some (k, v)) :
    toMap (swapRemove i l) = Function.update (toMap l) k none := by
  obtain ⟨hlt, he⟩ := List.getElem?_eq_some_iff.mp hi
  have hp : l.Perm ((k, v) :: swapRemove i l) := he ▸ perm_cons_swapRemove hlt
  have hn := (hp.map Prod.fst).nodup_iff.mp hl
  obtain ⟨hk, hn'⟩ := List.nodup_cons.mp hn
  rw [toMap_perm hl hp]
  funext x
  by_cases e : x = k
  · subst e
    rw [Function.update_self]
    refine Option.eq_none_iff_forall_not_mem.mpr fun w hw => hk ?_
    have hmem : (x, w) ∈ swapRemove i l := (toMap_eq_some hn').mp (Option.mem_def.mp hw)
    exact List.mem_map.mpr ⟨_, hmem, rfl⟩
  · rw [Function.update_of_ne e, toMap, if_neg (Ne.symm e)]

/-! ### As a finite map -/

/-- The finite map of the array. -/
def toFinmap (l : List (K × V)) : Finmap fun _ : K => V :=
  (l.map fun p => (⟨p.1, p.2⟩ : Sigma fun _ : K => V)).toFinmap

@[simp] theorem lookup_toFinmap (l : List (K × V)) (k : K) :
    (toFinmap l).lookup k = toMap l k := by
  rw [toFinmap, Finmap.dlookup_list_toFinmap]
  induction l with
  | nil => rfl
  | cons p l ih =>
      obtain ⟨k', v⟩ := p
      by_cases e : k' = k
      · subst e
        simp [toMap]
      · rw [toMap, if_neg e, ← ih]
        exact List.dlookup_cons_ne _ _ (Ne.symm e)

/-- The look-up of an array of records, by the search for the key. -/
theorem toMap_map {α : Type} (key : α → K) (val : α → V) (l : List α) (k : K) (i : Nat) :
    toMap (l.map fun a => (key a, val a)) k =
      (firstIdx (fun a => decide (key a = k)) i l).map fun x => val x.2 := by
  induction l generalizing i with
  | nil => rfl
  | cons a l ih =>
      rw [List.map_cons, toMap, firstIdx]
      by_cases e : key a = k
      · rw [if_pos e, if_pos (decide_eq_true e)]
        rfl
      · rw [if_neg e, if_neg (by simpa using e), ih (i + 1)]

theorem toFinmap_put (k : K) (v : V) (l : List (K × V)) :
    toFinmap (put k v l) = (toFinmap l).insert k v := by
  refine Finmap.ext_lookup fun x => ?_
  rw [lookup_toFinmap, toMap_put]
  by_cases e : x = k
  · subst e
    rw [Function.update_self, Finmap.lookup_insert]
  · rw [Function.update_of_ne e, Finmap.lookup_insert_of_ne _ e, lookup_toFinmap]

theorem toFinmap_swapRemove {l : List (K × V)} (hl : (l.map Prod.fst).Nodup) {i : Nat} {k : K}
    {v : V} (hi : l[i]? = some (k, v)) : toFinmap (swapRemove i l) = (toFinmap l).erase k := by
  refine Finmap.ext_lookup fun x => ?_
  rw [lookup_toFinmap, toMap_swapRemove hl hi]
  by_cases e : x = k
  · subst e
    rw [Function.update_self, Finmap.lookup_erase]
  · rw [Function.update_of_ne e, Finmap.lookup_erase_ne e, lookup_toFinmap]

theorem mem_toFinmap {l : List (K × V)} {k : K} : k ∈ toFinmap l ↔ k ∈ l.map Prod.fst := by
  rw [toFinmap, Finmap.mem_list_toFinmap]
  simp

/-- An array of unique keys has as many slots as the map has keys. -/
theorem card_keys_toFinmap {l : List (K × V)} (hl : (l.map Prod.fst).Nodup) :
    (toFinmap l).keys.card = l.length := by
  have hkeys : (toFinmap l).keys = (l.map Prod.fst).toFinset := by
    ext k
    rw [Finmap.mem_keys, mem_toFinmap, List.mem_toFinset]
  rw [hkeys, List.toFinset_card_of_nodup hl, List.length_map]

end Slots
