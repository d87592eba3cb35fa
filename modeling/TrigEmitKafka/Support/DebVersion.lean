import Mathlib.Data.List.TakeWhile
import Mathlib.Data.Nat.Basic
import Mathlib.Order.Compare

/-!
# Support — dpkg's version comparison

A version is an epoch, an upstream version and a revision, compared in turn.  The latter two are
cut into parts, in turn without digits and of digits.  Parts without digits are compared character
by character: a tilde before the end of the part, the end before the letters, and the letters
before the rest.  Parts of digits are compared as numbers, an empty one being 0.

* `verrevcmp_suffix`: a suffix that starts with `+` makes a version later.
* `verrevcmp_plus_lt`: such a suffix does not take a version that ends in a digit past a later one
  of digits and dots.
-/

namespace Deb

/-- The weight of a character in a part without digits; the end of the part weighs 0. -/
def order (c : Char) : Int :=
  if c = '~' then -1 else if c.isAlpha then c.toNat else c.toNat + 256

/-- Two parts without digits. -/
def compareParts : List Char → List Char → Ordering
  | [],     []     => .eq
  | c :: _, []     => compare (order c) 0
  | [],     d :: _ => compare 0 (order d)
  | c :: a, d :: b => (compare (order c) (order d)).then (compareParts a b)

def isNonDigit (c : Char) : Bool := !c.isDigit

/-- The part without digits a version starts with. -/
def part (v : List Char) : List Char := v.takeWhile isNonDigit

/-- The number a part of digits stands for. -/
def value (digits : List Char) : Nat := digits.foldl (fun n c => 10 * n + (c.toNat - '0'.toNat)) 0

/-- The number after it. -/
def number (v : List Char) : Nat := value ((v.dropWhile isNonDigit).takeWhile Char.isDigit)

/-- What follows the two. -/
def rest (v : List Char) : List Char := (v.dropWhile isNonDigit).dropWhile Char.isDigit

theorem rest_suffix (v : List Char) : rest v <:+ v :=
  (List.dropWhile_suffix _).trans (List.dropWhile_suffix _)

theorem length_rest_lt {v : List Char} (h : v ≠ []) : (rest v).length < v.length := by
  obtain ⟨c, l, rfl⟩ := List.exists_cons_of_ne_nil h
  rw [rest, List.length_cons, Nat.lt_succ_iff]
  by_cases hc : c.isDigit = true
  · rw [List.dropWhile_cons_of_neg (by simp [isNonDigit, hc]), List.dropWhile_cons_of_pos hc]
    exact (List.dropWhile_sublist _).length_le
  · rw [List.dropWhile_cons_of_pos (by simp [isNonDigit, hc])]
    exact (rest_suffix l).length_le

/-- `verrevcmp`: two upstream versions, or two revisions. -/
def verrevcmp (a b : List Char) : Ordering :=
  if a = [] ∧ b = [] then .eq
  else (compareParts (part a) (part b)).then
    ((compare (number a) (number b)).then (verrevcmp (rest a) (rest b)))
termination_by a.length + b.length
decreasing_by
  rename_i h
  by_cases ha : a = []
  · have hb := length_rest_lt fun hb => h ⟨ha, hb⟩
    have ha := (rest_suffix a).length_le
    omega
  · have ha := length_rest_lt ha
    have hb := (rest_suffix b).length_le
    omega

/-- The epoch of a version, 0 if there is none, and what follows it. -/
def splitEpoch (v : List Char) : Nat × List Char :=
  if ':' ∈ v then (value (v.takeWhile (· ≠ ':')), (v.dropWhile (· ≠ ':')).tail) else (0, v)

/-- The upstream version and the revision, which starts after the last hyphen. -/
def splitRevision (v : List Char) : List Char × List Char :=
  if '-' ∈ v then
    ((v.reverse.dropWhile (· ≠ '-')).tail.reverse, (v.reverse.takeWhile (· ≠ '-')).reverse)
  else (v, [])

/-- Two versions. -/
def compareVersions (v w : List Char) : Ordering :=
  let a := splitEpoch v
  let b := splitEpoch w
  let a' := splitRevision a.2
  let b' := splitRevision b.2
  (compare a.1 b.1).then ((verrevcmp a'.1 b'.1).then (verrevcmp a'.2 b'.2))

/-- The version has neither an epoch nor a revision. -/
def Plain (v : List Char) : Prop := ':' ∉ v ∧ '-' ∉ v

/-- Without epochs and revisions, the upstream versions are compared. -/
theorem compareVersions_plain {v w : List Char} (hv : Plain v) (hw : Plain w) :
    compareVersions v w = verrevcmp v w := by
  have hnil : verrevcmp [] [] = .eq := by
    rw [verrevcmp, if_pos ⟨rfl, rfl⟩]
  simp only [compareVersions, splitEpoch, splitRevision, if_neg hv.1, if_neg hv.2, if_neg hw.1,
    if_neg hw.2, hnil, Ordering.then_eq]
  simp

/-! ### The parts of a version -/

section parts

variable {p : List Char} {c : Char}

/-- A version has a first digit, or none. -/
theorem exists_first_digit (t : List Char) : (∀ x ∈ t, isNonDigit x) ∨
    ∃ p c r, t = p ++ c :: r ∧ (∀ x ∈ p, isNonDigit x) ∧ c.isDigit = true := by
  cases hd : t.dropWhile isNonDigit with
  | nil => exact Or.inl (List.dropWhile_eq_nil_iff.mp hd)
  | cons c r =>
      refine Or.inr ⟨t.takeWhile isNonDigit, c, r, ?_, fun x hx => List.mem_takeWhile_imp hx, ?_⟩
      · rw [← hd, List.takeWhile_append_dropWhile]
      · have hc := List.head_dropWhile_not isNonDigit (l := t) (by rw [hd]; simp)
        simpa [hd, isNonDigit] using hc

theorem part_eq (hp : ∀ x ∈ p, isNonDigit x) (hc : c.isDigit = true) (r : List Char) :
    part (p ++ c :: r) = p := by
  rw [part, List.takeWhile_append_of_pos hp, List.takeWhile_cons_of_neg (by simp [isNonDigit, hc]),
    List.append_nil]

theorem dropWhile_eq (hp : ∀ x ∈ p, isNonDigit x) (hc : c.isDigit = true) (r : List Char) :
    (p ++ c :: r).dropWhile isNonDigit = c :: r := by
  rw [List.dropWhile_append_of_pos hp, List.dropWhile_cons_of_neg (by simp [isNonDigit, hc])]

theorem number_eq (hp : ∀ x ∈ p, isNonDigit x) (hc : c.isDigit = true) (r : List Char) :
    number (p ++ c :: r) = value (c :: r.takeWhile Char.isDigit) := by
  rw [number, dropWhile_eq hp hc, List.takeWhile_cons_of_pos hc]

theorem rest_eq (hp : ∀ x ∈ p, isNonDigit x) (hc : c.isDigit = true) (r : List Char) :
    rest (p ++ c :: r) = r.dropWhile Char.isDigit := by
  rw [rest, dropWhile_eq hp hc, List.dropWhile_cons_of_pos hc]

/-- A part ends at a character that is not of it. -/
theorem takeWhile_stop {q : Char → Bool} (hc : q c = false) (l s : List Char) :
    (l ++ c :: s).takeWhile q = l.takeWhile q := by
  rw [List.takeWhile_append, List.takeWhile_cons_of_neg (by simp [hc]), List.append_nil]
  split
  · rename_i h
    exact ((List.takeWhile_prefix q).eq_of_length h).symm
  · rfl

theorem dropWhile_stop {q : Char → Bool} (hc : q c = false) (l s : List Char) :
    (l ++ c :: s).dropWhile q = l.dropWhile q ++ c :: s := by
  rw [List.dropWhile_append, List.dropWhile_cons_of_neg (by simp [hc])]
  split
  · rename_i h
    rw [List.isEmpty_iff.mp h, List.nil_append]
  · rfl

end parts

/-! ### A suffix -/

theorem compareParts_self (p : List Char) : compareParts p p = .eq := by
  induction p with
  | nil => rfl
  | cons c p ih => simp [compareParts, ih]

/-- A part that goes on with a `+` is later. -/
theorem compareParts_append (p q : List Char) : compareParts (p ++ '+' :: q) p = .gt := by
  induction p with
  | nil => rfl
  | cons c p ih => simp [compareParts, ih]

/-- **A suffix that starts with `+`** makes a version later. -/
theorem verrevcmp_suffix (t s : List Char) : verrevcmp (t ++ '+' :: s) t = .gt := by
  induction h : t.length using Nat.strong_induction_on generalizing t with
  | _ n ih =>
      subst h
      rw [verrevcmp, if_neg (by simp)]
      obtain hp | ⟨p, c, r, rfl, hp, hc⟩ := exists_first_digit t
      · have hpart : part (t ++ '+' :: s) = t ++ '+' :: part s :=
          List.takeWhile_append_of_pos hp
        have hsame : part t = t := List.takeWhile_eq_self_iff.mpr hp
        rw [hpart, hsame, compareParts_append]
        rfl
      · have hlater := ih _ (length_rest_lt (v := p ++ c :: r) (by simp)) _ rfl
        rw [rest_eq hp hc] at hlater
        rw [List.append_assoc, List.cons_append, part_eq hp hc, part_eq hp hc, number_eq hp hc,
          number_eq hp hc, rest_eq hp hc, rest_eq hp hc, takeWhile_stop rfl, dropWhile_stop rfl,
          compareParts_self, Nat.compare_eq_eq.mpr rfl]
        exact hlater

/-- The last character is a digit. -/
def EndsInDigit (x : List Char) : Prop := ∃ c, x.getLast? = some c ∧ c.isDigit = true

/-- The end of a version is the end of what is left of it. -/
theorem EndsInDigit.of_suffix {x y : List Char} (h : EndsInDigit x) (hy : y ≠ []) (hs : y <:+ x) :
    EndsInDigit y := by
  obtain ⟨c, hlast, hc⟩ := h
  obtain ⟨l, rfl⟩ := hs
  rw [List.getLast?_append, List.getLast?_eq_some_getLast hy, Option.some_or] at hlast
  exact ⟨c, (List.getLast?_eq_some_getLast hy).trans hlast, hc⟩

/-- After the numbers there comes no digit. -/
theorem head_rest {t u : List Char} {d : Char} (h : rest t = d :: u) :
    d ∈ t ∧ d.isDigit = false := by
  have hd := List.head_dropWhile_not Char.isDigit (l := t.dropWhile isNonDigit)
    (by rw [show (t.dropWhile isNonDigit).dropWhile Char.isDigit = d :: u from h]; simp)
  have hmem : d ∈ rest t := by
    rw [h]
    exact List.mem_cons_self
  refine ⟨(rest_suffix t).subset hmem, ?_⟩
  simpa [show (t.dropWhile isNonDigit).dropWhile Char.isDigit = d :: u from h] using hd

/-- **A suffix that starts with `+` does not reach the next version** of digits and dots. -/
theorem verrevcmp_plus_lt {x t : List Char} (hx : EndsInDigit x)
    (ht : ∀ c ∈ t, c.isDigit = true ∨ c = '.') (h : verrevcmp x t = .lt) (s : List Char) :
    verrevcmp (x ++ '+' :: s) t = .lt := by
  induction hn : x.length using Nat.strong_induction_on generalizing x t with
  | _ n ih =>
      subst hn
      obtain hp | ⟨p, c, r, rfl, hp, hc⟩ := exists_first_digit x
      · obtain ⟨c, hlast, hc⟩ := hx
        have hno : isNonDigit c = true := hp c (List.mem_of_getLast? hlast)
        simp [isNonDigit, hc] at hno
      rw [verrevcmp, if_neg (by simp), part_eq hp hc, number_eq hp hc, rest_eq hp hc,
        Ordering.then_eq_lt, Ordering.then_eq_lt] at h
      rw [verrevcmp, if_neg (by simp), List.append_assoc, List.cons_append, part_eq hp hc,
        number_eq hp hc, rest_eq hp hc, takeWhile_stop rfl, dropWhile_stop rfl,
        Ordering.then_eq_lt, Ordering.then_eq_lt]
      refine h.imp_right fun h => ⟨h.1, h.2.imp_right fun h => ⟨h.1, ?_⟩⟩
      have hlater := h.2
      by_cases hr : r.dropWhile Char.isDigit = []
      · -- what is left of the later version starts with a dot, which is after a `+`
        rw [hr] at hlater ⊢
        cases hu : rest t with
        | nil =>
            rw [hu, verrevcmp, if_pos ⟨rfl, rfl⟩] at hlater
            cases hlater
        | cons d u =>
            obtain ⟨hmem, hd⟩ := head_rest hu
            obtain rfl : d = '.' := (ht d hmem).resolve_left (by simp [hd])
            have hplus : part ('+' :: s) = '+' :: part s := rfl
            have hdot : part ('.' :: u) = '.' :: part u := rfl
            rw [List.nil_append, verrevcmp, if_neg (by simp), hplus, hdot]
            rfl
      · have hsuffix := rest_suffix (p ++ c :: r)
        have hshorter := length_rest_lt (v := p ++ c :: r) (by simp)
        rw [rest_eq hp hc] at hsuffix hshorter
        refine ih _ hshorter (hx.of_suffix hr hsuffix) ?_ hlater rfl
        exact fun c hc => ht c ((rest_suffix t).subset hc)

end Deb
