import TrigEmitKafka.Source.Version
import TrigEmitKafka.Support.DebVersion

/-!
# Results — the package version

`build-deb.sh` tells the kinds of `git describe` output apart by their shape alone.

* `matchTag_iff`, `matchCommits_iff`: what the two regular expressions match, and their groups.
* `version_ok_iff`: the version is legal and ordered as documented exactly where the shape says
  the kind: commits follow a numeric tag, a bare hash has a letter, and the name of a tag alone,
  once a `-dirty` at its end is gone, has no hyphen or the shape of commits after a numeric tag.
* `digitHash_misread`: a bare hash without a letter is taken for a release, and the version of a
  tag with a hyphen keeps it.
-/

namespace TrigEmit

open Deb (compareVersions compareVersions_plain verrevcmp verrevcmp_suffix verrevcmp_plus_lt Plain
  EndsInDigit takeWhile_stop dropWhile_stop)

/-! ### What the regular expressions match -/

/-- `v?` before `s`. -/
def AfterV (s text : Text) : Prop := text = s ∨ text = 'v' :: s

theorem dropV_eq {s text : Text} (h : AfterV s text) {c : Char} {l : Text} (hs : s = c :: l)
    (hc : c ≠ 'v') : dropV text = s := by
  subst hs
  rcases h with rfl | rfl
  · unfold dropV
    split
    · rename_i e
      cases e
      exact absurd rfl hc
    · rfl
  · rfl

theorem afterV_dropV (text : Text) : AfterV (dropV text) text := by
  unfold dropV
  split
  · exact Or.inr rfl
  · exact Or.inl rfl

/-- A release starts with a digit, and goes on with digits and dots. -/
theorem isRelease_iff {n : Text} : isRelease n = true ↔
    (∃ c l, n = c :: l ∧ c.isDigit = true) ∧ ∀ c ∈ n, isDigitOrDot c = true := by
  cases n with
  | nil => simp [isRelease]
  | cons c l =>
      simp only [isRelease, Bool.and_eq_true, List.all_eq_true, List.forall_mem_cons]
      constructor
      · rintro ⟨hc, hl⟩
        exact ⟨⟨c, l, rfl, hc⟩, by simp [isDigitOrDot, hc], hl⟩
      · rintro ⟨⟨c', l', e, hc⟩, -, hl⟩
        cases e
        exact ⟨hc, hl⟩

theorem matchTag_iff {s n : Text} :
    matchTag s = some n ↔ isRelease n = true ∧ AfterV n s := by
  rw [matchTag, Option.ite_none_right_eq_some, Option.some.injEq]
  constructor
  · rintro ⟨h, rfl⟩
    exact ⟨h, afterV_dropV s⟩
  · rintro ⟨h, hs⟩
    obtain ⟨⟨c, l, hn, hc⟩, -⟩ := isRelease_iff.mp h
    have hdrop := dropV_eq hs hn fun e => by subst e; cases hc
    rw [hdrop]
    exact ⟨h, rfl⟩

/-- `n`, commits and a hash. -/
def commitsText (n d h : Text) : Text := n ++ '-' :: (d ++ '-' :: 'g' :: h)

theorem matchCommits_iff {s n d h : Text} :
    matchCommits s = some (n, d, h) ↔ isRelease n = true ∧ (d ≠ [] ∧ ∀ c ∈ d, c.isDigit = true) ∧
      (h ≠ [] ∧ ∀ c ∈ h, isHex c = true) ∧ AfterV (commitsText n d h) s := by
  constructor
  · intro hm
    unfold matchCommits at hm
    simp only at hm
    split at hm
    · rename_i s₁ hs₁
      split at hm
      · rename_i h' hs₂
        obtain ⟨⟨hn, hd, hh, hhex⟩, e⟩ := Option.ite_none_right_eq_some.mp hm
        cases e
        refine ⟨hn, ⟨hd, fun c hc => List.mem_takeWhile_imp hc⟩, ⟨hh, List.all_eq_true.mp hhex⟩, ?_⟩
        have hs := afterV_dropV s
        rw [← List.takeWhile_append_dropWhile (p := isDigitOrDot) (l := dropV s), hs₁,
          ← List.takeWhile_append_dropWhile (p := Char.isDigit) (l := s₁), hs₂] at hs
        exact hs
      · cases hm
    · cases hm
  · rintro ⟨hn, ⟨hd, hdigits⟩, ⟨hh, hhex⟩, hs⟩
    obtain ⟨⟨c, l, hcl, hc⟩, hall⟩ := isRelease_iff.mp hn
    have hdrop : dropV s = commitsText n d h := by
      refine dropV_eq hs (c := c) (l := l ++ '-' :: (d ++ '-' :: 'g' :: h)) ?_ fun e => ?_
      · rw [commitsText, hcl]
        rfl
      · subst e
        cases hc
    have htake : (commitsText n d h).takeWhile isDigitOrDot = n := by
      rw [commitsText, takeWhile_stop rfl]
      exact List.takeWhile_eq_self_iff.mpr hall
    have hrest : (commitsText n d h).dropWhile isDigitOrDot = '-' :: (d ++ '-' :: 'g' :: h) := by
      rw [commitsText, dropWhile_stop rfl, List.dropWhile_eq_nil_iff.mpr hall]
      rfl
    have htake' : (d ++ '-' :: 'g' :: h).takeWhile Char.isDigit = d := by
      rw [takeWhile_stop rfl]
      exact List.takeWhile_eq_self_iff.mpr hdigits
    have hrest' : (d ++ '-' :: 'g' :: h).dropWhile Char.isDigit = '-' :: 'g' :: h := by
      rw [dropWhile_stop rfl, List.dropWhile_eq_nil_iff.mpr hdigits]
      rfl
    simp only [matchCommits, hdrop, htake, hrest, htake', hrest']
    exact if_pos ⟨hn, hd, hh, List.all_eq_true.mpr hhex⟩

/-! ### Hyphens -/

/-- No character is a hyphen, or a colon. -/
theorem plain_of {s : Text} (h : ∀ c ∈ s, c ≠ ':' ∧ c ≠ '-') : Plain s :=
  ⟨fun hm => (h _ hm).1 rfl, fun hm => (h _ hm).2 rfl⟩

theorem isDigitOrDot_plain {c : Char} (h : isDigitOrDot c = true) : c ≠ ':' ∧ c ≠ '-' := by
  constructor
  · rintro rfl
    cases h
  · rintro rfl
    cases h

theorem isHex_plain {c : Char} (h : isHex c = true) : c ≠ ':' ∧ c ≠ '-' := by
  constructor
  · rintro rfl
    cases h
  · rintro rfl
    cases h

theorem isDigit_plain {c : Char} (h : c.isDigit = true) : c ≠ ':' ∧ c ≠ '-' :=
  isDigitOrDot_plain (by rw [isDigitOrDot, h, Bool.true_or])

theorem plain_append {s t : Text} (hs : Plain s) (ht : Plain t) : Plain (s ++ t) := by
  constructor
  · rw [List.mem_append, not_or]
    exact ⟨hs.1, ht.1⟩
  · rw [List.mem_append, not_or]
    exact ⟨hs.2, ht.2⟩

theorem plain_release {n : Text} (h : isRelease n = true) : Plain n :=
  plain_of fun c hc => isDigitOrDot_plain ((isRelease_iff.mp h).2 c hc)

/-- What is after the last hyphen is found from the end. -/
theorem last_hyphen {a b x y : Text} (hx : '-' ∉ x) (hy : '-' ∉ y)
    (h : a ++ '-' :: x = b ++ '-' :: y) : a = b ∧ x = y := by
  obtain ⟨l, rfl, e⟩ | ⟨l, rfl, e⟩ := List.append_eq_append_iff.mp h
  · cases l with
    | nil => exact ⟨(List.append_nil a).symm, (List.cons.inj e).2⟩
    | cons c l =>
        rw [(List.cons.inj e).2] at hx
        exact absurd (List.mem_append_right _ List.mem_cons_self) hx
  · cases l with
    | nil => exact ⟨List.append_nil b, (List.cons.inj e).2.symm⟩
    | cons c l =>
        rw [(List.cons.inj e).2] at hy
        exact absurd (List.mem_append_right _ List.mem_cons_self) hy

/-- A string without a hyphen is none of commits after a tag. -/
theorem matchCommits_of_plain {s : Text} (h : '-' ∉ s) : matchCommits s = none := by
  rw [Option.eq_none_iff_forall_ne_some]
  rintro ⟨n, d, h'⟩ hm
  obtain ⟨-, -, -, rfl | rfl⟩ := matchCommits_iff.mp hm
  · exact h (by simp [commitsText])
  · exact h (by simp [commitsText])

/-- **Commits after a tag are recognised by the tag.** -/
theorem matchCommits_text (t d h : Text) (hd : d ≠ [] ∧ ∀ c ∈ d, c.isDigit = true)
    (hh : h ≠ [] ∧ ∀ c ∈ h, isHex c = true) :
    matchCommits (commitsText t d h) = (matchTag t).map fun n => (n, d, h) := by
  have hplain : '-' ∉ 'g' :: h := by
    intro hm
    rcases List.mem_cons.mp hm with e | hm
    · cases e
    · exact (isHex_plain (hh.2 _ hm)).2 rfl
  have hplain' : '-' ∉ d := fun hm => (isDigit_plain (hd.2 _ hm)).2 rfl
  cases ht : matchTag t with
  | some n =>
      obtain ⟨hn, hv⟩ := matchTag_iff.mp ht
      refine matchCommits_iff.mpr ⟨hn, hd, hh, ?_⟩
      rcases hv with rfl | rfl
      · exact Or.inl rfl
      · exact Or.inr rfl
  | none =>
      rw [Option.map_none, Option.eq_none_iff_forall_ne_some]
      rintro ⟨n, d', h'⟩ hm
      obtain ⟨hn, ⟨-, hd'⟩, ⟨-, hh'⟩, hv⟩ := matchCommits_iff.mp hm
      have hg : '-' ∉ 'g' :: h' := by
        intro hm
        rcases List.mem_cons.mp hm with e | hm
        · cases e
        · exact (isHex_plain (hh' _ hm)).2 rfl
      have hd'' : '-' ∉ d' := fun hm => (isDigit_plain (hd' _ hm)).2 rfl
      -- the last hyphen is before the hash, the one before it before the distance
      have htag : ∀ p : Text, commitsText t d h = p ++ commitsText n d' h' → t = p ++ n := by
        intro p e
        have e' : (t ++ '-' :: d) ++ '-' :: 'g' :: h = (p ++ n ++ '-' :: d') ++ '-' :: 'g' :: h' := by
          simpa [commitsText] using e
        exact (last_hyphen hplain' hd'' (last_hyphen hplain hg e').1).1
      have hsome : matchTag t = some n := by
        refine matchTag_iff.mpr ⟨hn, ?_⟩
        rcases hv with e | e
        · exact Or.inl (htag [] e)
        · exact Or.inr (htag ['v'] e)
      rw [ht] at hsome
      cases hsome

/-! ### The version of a string -/

theorem stripDirty_append (s : Text) : stripDirty (s ++ dirtySuffix) = (s, "+dirty".toList) := by
  rw [stripDirty, if_pos (List.suffix_append _ _), List.length_append, Nat.add_sub_cancel,
    List.take_left]

theorem stripDirty_of_not {s : Text} (h : ¬ dirtySuffix <:+ s) : stripDirty s = (s, []) :=
  if_neg h

/-- What is appended is nothing or `+dirty`. -/
theorem stripDirty_snd (s : Text) : (stripDirty s).2 = [] ∨ (stripDirty s).2 = "+dirty".toList := by
  unfold stripDirty
  split
  · exact Or.inr rfl
  · exact Or.inl rfl

/-- The marker of a work tree that is dirty. -/
def Describe.marker (d : Describe) : Text := if d.dirty then "+dirty".toList else []

/-- Where the text does not end in `-dirty` by itself, the marker is right. -/
theorem Describe.strip (d : Describe) (h : d.dirty = false → ¬ dirtySuffix <:+ d.what.text) :
    stripDirty d.text = (d.what.text, d.marker) := by
  obtain ⟨what, dirty⟩ := d
  cases dirty with
  | true => exact stripDirty_append what.text
  | false =>
      have htext : Describe.text ⟨what, false⟩ = what.text := List.append_nil _
      rw [htext]
      exact stripDirty_of_not (h rfl)

/-- It starts with a digit. -/
theorem versionOf_digit (s : Text) : ∃ c l, versionOf s = c :: l ∧ c.isDigit = true := by
  unfold versionOf
  split
  · rename_i n d h hm
    obtain ⟨⟨c, l, rfl, hc⟩, -⟩ := isRelease_iff.mp (matchCommits_iff.mp hm).1
    exact ⟨c, _, rfl, hc⟩
  · split
    · rename_i n hm
      obtain ⟨⟨c, l, rfl, hc⟩, -⟩ := isRelease_iff.mp (matchTag_iff.mp hm).1
      exact ⟨c, l, rfl, hc⟩
    · exact ⟨'0', _, rfl, rfl⟩

/-- It has a hyphen exactly if the string has, and is none of commits after a numeric tag. -/
theorem versionOf_hyphen (s : Text) :
    '-' ∉ versionOf s ↔ '-' ∉ s ∨ (matchCommits s).isSome = true := by
  cases hm : matchCommits s with
  | some x =>
      obtain ⟨n, d, h⟩ := x
      obtain ⟨hn, ⟨-, hd⟩, ⟨-, hh⟩, -⟩ := matchCommits_iff.mp hm
      have hno : '-' ∉ versionOf s := by
        have hv : versionOf s = n ++ '+' :: (d ++ '.' :: 'g' :: h) := by rw [versionOf, hm]
        rw [hv]
        intro hmem
        rcases List.mem_append.mp hmem with hmem | hmem
        · exact (plain_release hn).2 hmem
        rcases List.mem_cons.mp hmem with e | hmem
        · cases e
        rcases List.mem_append.mp hmem with hmem | hmem
        · exact (isDigit_plain (hd _ hmem)).2 rfl
        rcases List.mem_cons.mp hmem with e | hmem
        · cases e
        rcases List.mem_cons.mp hmem with e | hmem
        · cases e
        · exact (isHex_plain (hh _ hmem)).2 rfl
      exact ⟨fun _ => Or.inr rfl, fun _ => hno⟩
  | none =>
      cases ht : matchTag s with
      | some n =>
          obtain ⟨hn, hv⟩ := matchTag_iff.mp ht
          have hno := (plain_release hn).2
          have hversion : versionOf s = n := by rw [versionOf, hm, ht]
          rw [hversion]
          refine ⟨fun _ => Or.inl ?_, fun _ => hno⟩
          rcases hv with rfl | rfl
          · exact hno
          · intro hmem
            rcases List.mem_cons.mp hmem with e | hmem
            · cases e
            · exact hno hmem
      | none =>
          have hversion : versionOf s = "0.0.0+git.".toList ++ s := by rw [versionOf, hm, ht]
          rw [hversion, List.mem_append, not_or]
          constructor
          · rintro ⟨-, h⟩
            exact Or.inl h
          · rintro (h | h)
            · exact ⟨by decide, h⟩
            · cases h

/-! ### What the version should be -/

/-- The tag is a number: `v?[0-9][0-9.]*`. -/
def TagName.IsNumeric (t : TagName) : Prop := (matchTag t.name).isSome = true

/-- The version of the tag alone. -/
def TagName.version (t : TagName) : Option Text := deriveVersion (Describe.text ⟨.tag t, false⟩)

/-- There are commits after the tag, or changes that are not committed. -/
def Describe.Past (d : Describe) (t : TagName) : Prop :=
  (∃ n hash, d.what = .commits t n hash) ∨ d.what = .tag t ∧ d.dirty = true

/-- The version is legal, and ordered as documented. -/
structure Describe.VersionOk (d : Describe) (v : Text) : Prop where
  /-- It starts with a digit. -/
  digit : ∃ c l, v = c :: l ∧ c.isDigit = true
  noHyphen : '-' ∉ v
  /-- For a bare hash it is `0.0.0+git.<hash>`, below every release that is above 0.0.0. -/
  untagged : ∀ hash, d.what = .bare hash → v = "0.0.0+git.".toList ++ hash.digits ++ d.marker ∧
    ∀ t : TagName, t.IsNumeric → ∀ w, t.version = some w →
      compareVersions "0.0.0".toList w = .lt → compareVersions v w = .lt
  /-- Past a numeric tag it is above the version of the tag. -/
  past : ∀ t : TagName, t.IsNumeric → d.Past t → ∀ w, t.version = some w →
    compareVersions v w = .gt

/-- The kind of the output is told by its shape. -/
def Describe.Recognised (d : Describe) : Prop :=
  match d.what with
  | .tag _         =>
      '-' ∉ (stripDirty d.text).1 ∨ (matchCommits (stripDirty d.text).1).isSome = true
  | .commits t _ _ => t.IsNumeric
  | .bare hash     => ∃ c ∈ hash.digits, c.isDigit = false

/-! ### The kinds -/

/-- The version of a numeric tag is the number. -/
theorem TagName.version_eq {t : TagName} {n : Text} (h : matchTag t.name = some n) :
    t.version = some n ∧ versionOf t.name = n ∧ '-' ∉ t.name := by
  obtain ⟨hn, hv⟩ := matchTag_iff.mp h
  have hplain : '-' ∉ t.name := by
    rcases hv with e | e
    · rw [e]
      exact (plain_release hn).2
    · rw [e]
      intro hm
      rcases List.mem_cons.mp hm with e | hm
      · cases e
      · exact (plain_release hn).2 hm
  have hversion : versionOf t.name = n := by
    rw [versionOf, matchCommits_of_plain hplain, h]
  have hclean : ¬ dirtySuffix <:+ t.name := fun hs => hplain (hs.subset (by decide))
  refine ⟨?_, hversion, hplain⟩
  rw [TagName.version, deriveVersion, Describe.strip ⟨.tag t, false⟩ fun _ => hclean,
    show Describe.text ⟨.tag t, false⟩ = t.name from List.append_nil _, if_neg t.nonempty]
  exact congrArg some ((List.append_nil _).trans hversion)

theorem Describe.text_ne_nil (d : Describe) : d.text ≠ [] := by
  obtain ⟨what, dirty⟩ := d
  rw [Describe.text, ne_eq, List.append_eq_nil_iff, not_and_or]
  refine Or.inl ?_
  cases what with
  | tag t => exact t.nonempty
  | commits t n hash => simp [Described.text]
  | bare hash => exact hash.nonempty

/-- Everything is a version, and there is one. -/
theorem Describe.version_eq (d : Describe) : deriveVersion d.text =
    some (versionOf (stripDirty d.text).1 ++ (stripDirty d.text).2) :=
  if_neg d.text_ne_nil

/-- **Legal**: it starts with a digit, and has a hyphen exactly where the text is not told apart. -/
theorem Describe.legal (d : Describe) :
    (∃ c l, versionOf (stripDirty d.text).1 ++ (stripDirty d.text).2 = c :: l ∧ c.isDigit = true) ∧
      ('-' ∉ versionOf (stripDirty d.text).1 ++ (stripDirty d.text).2 ↔
        '-' ∉ (stripDirty d.text).1 ∨ (matchCommits (stripDirty d.text).1).isSome = true) := by
  constructor
  · obtain ⟨c, l, e, hc⟩ := versionOf_digit (stripDirty d.text).1
    exact ⟨c, l ++ (stripDirty d.text).2, by rw [e]; rfl, hc⟩
  · rw [List.mem_append, not_or, versionOf_hyphen]
    refine and_iff_left ?_
    rcases stripDirty_snd d.text with e | e
    · rw [e]
      exact List.not_mem_nil
    · rw [e]
      decide

/-- A hash with a letter is no release. -/
theorem Hash.matchTag_letter {hash : Hash} (h : ∃ c ∈ hash.digits, c.isDigit = false) :
    matchTag hash.digits = none := by
  obtain ⟨c, hc, hletter⟩ := h
  rw [Option.eq_none_iff_forall_ne_some]
  intro n hm
  obtain ⟨hn, e | e⟩ := matchTag_iff.mp hm
  · rw [e] at hc
    have hhex := hash.hex c (e ▸ hc)
    have hdot := (isRelease_iff.mp hn).2 c hc
    rw [isDigitOrDot, hletter, Bool.false_or, beq_iff_eq] at hdot
    rw [hdot] at hhex
    cases hhex
  · have hhex := hash.hex 'v' (e ▸ List.mem_cons_self)
    cases hhex

/-- A hash without one is. -/
theorem Hash.matchTag_digits {hash : Hash} (h : ∀ c ∈ hash.digits, c.isDigit = true) :
    matchTag hash.digits = some hash.digits := by
  obtain ⟨c, l, e⟩ := List.exists_cons_of_ne_nil hash.nonempty
  refine matchTag_iff.mpr ⟨isRelease_iff.mpr ⟨⟨c, l, e, h c (by simp [e])⟩, ?_⟩, Or.inl rfl⟩
  intro c hc
  rw [isDigitOrDot, h c hc, Bool.true_or]

theorem Hash.plain (hash : Hash) : Plain hash.digits :=
  plain_of fun c hc => isHex_plain (hash.hex c hc)

theorem Describe.marker_plain (d : Describe) : Plain d.marker := by
  unfold Describe.marker
  split
  · exact ⟨by decide, by decide⟩
  · exact ⟨List.not_mem_nil, List.not_mem_nil⟩

/-- A hash is no word that ends in `-dirty`. -/
theorem Hash.not_dirty (hash : Hash) (s : Text) : ¬ dirtySuffix <:+ s ++ hash.digits := by
  rintro ⟨l, e⟩
  have hlast := congrArg List.getLast? e
  rw [List.getLast?_append, List.getLast?_append, List.getLast?_eq_some_getLast hash.nonempty] at hlast
  have hy : hash.digits.getLast hash.nonempty = 'y' := (Option.some.inj hlast).symm
  have hhex := hash.hex _ (List.getLast_mem hash.nonempty)
  rw [hy] at hhex
  cases hhex

theorem digits_spec (n : Nat) :
    Nat.toDigits 10 n ≠ [] ∧ ∀ c ∈ Nat.toDigits 10 n, c.isDigit = true :=
  ⟨Nat.toDigits_ne_nil, fun _ hc => Nat.isDigit_of_mem_toDigits (by decide) (by decide) hc⟩

/-- A suffix that starts with `+` makes a release later. -/
theorem compareVersions_suffix {n s : Text} (hn : isRelease n = true) (hs : Plain s) :
    compareVersions (n ++ '+' :: s) n = .gt := by
  have hplus : Plain ('+' :: s) := by
    constructor
    · rw [List.mem_cons, not_or]
      exact ⟨by decide, hs.1⟩
    · rw [List.mem_cons, not_or]
      exact ⟨by decide, hs.2⟩
  rw [compareVersions_plain (plain_append (plain_release hn) hplus) (plain_release hn)]
  exact verrevcmp_suffix n s

/-- An untagged version is below every release above 0.0.0. -/
theorem compareVersions_untagged {n s : Text} (hn : isRelease n = true) (hs : Plain s)
    (h : compareVersions "0.0.0".toList n = .lt) :
    compareVersions ("0.0.0+git.".toList ++ s) n = .lt := by
  have hzero : Plain "0.0.0".toList := ⟨by decide, by decide⟩
  have hgit : Plain "0.0.0+git.".toList := ⟨by decide, by decide⟩
  rw [compareVersions_plain hzero (plain_release hn)] at h
  rw [compareVersions_plain (plain_append hgit hs) (plain_release hn)]
  have hdots : ∀ c ∈ n, c.isDigit = true ∨ c = '.' := by
    intro c hc
    simpa [isDigitOrDot] using (isRelease_iff.mp hn).2 c hc
  have hend : EndsInDigit "0.0.0".toList := ⟨'0', rfl, rfl⟩
  exact verrevcmp_plus_lt hend hdots h ("git.".toList ++ s)

/-! ### The result -/

/-- **A tag alone.** -/
theorem tag_ok {t : TagName} {dirty : Bool} (h : Describe.Recognised ⟨.tag t, dirty⟩) :
    Describe.VersionOk ⟨.tag t, dirty⟩ (versionOf (stripDirty (Describe.text ⟨.tag t, dirty⟩)).1 ++
      (stripDirty (Describe.text ⟨.tag t, dirty⟩)).2) where
  digit := (Describe.legal _).1
  noHyphen := (Describe.legal _).2.mpr h
  untagged hash e := by cases e
  past t' ht hpast w hw := by
    rcases hpast with ⟨n, hash, e⟩ | ⟨e, hdirty⟩
    · cases e
    · cases e
      obtain rfl : dirty = true := hdirty
      obtain ⟨n, hn⟩ := Option.isSome_iff_exists.mp ht
      obtain ⟨hversion, hof, -⟩ := TagName.version_eq hn
      have hstrip := Describe.strip ⟨.tag t, true⟩ fun e => (by cases e)
      rw [hversion] at hw
      cases hw
      rw [hstrip, show Described.text (.tag t) = t.name from rfl, hof]
      exact compareVersions_suffix (s := "dirty".toList) (matchTag_iff.mp hn).1
        ⟨by decide, by decide⟩

section commits

variable (t : TagName) (k : Nat) (hash : Hash) (dirty : Bool)

/-- The text without the marker. -/
theorem commits_strip : stripDirty (Describe.text ⟨.commits t k hash, dirty⟩) =
    (commitsText t.name (Nat.toDigits 10 k) hash.digits,
      Describe.marker ⟨.commits t k hash, dirty⟩) := by
  refine Describe.strip ⟨.commits t k hash, dirty⟩ fun _ => ?_
  have hend := hash.not_dirty (t.name ++ '-' :: (Nat.toDigits 10 k ++ ['-', 'g']))
  simpa [Described.text] using hend

theorem commits_match : matchCommits (commitsText t.name (Nat.toDigits 10 k) hash.digits) =
    (matchTag t.name).map fun n => (n, Nat.toDigits 10 k, hash.digits) :=
  matchCommits_text _ _ _ (digits_spec k) ⟨hash.nonempty, hash.hex⟩

variable {t k hash dirty}

/-- The version has no hyphen exactly if the tag is numeric. -/
theorem commits_hyphen : ('-' ∉ versionOf (stripDirty (Describe.text ⟨.commits t k hash, dirty⟩)).1 ++
    (stripDirty (Describe.text ⟨.commits t k hash, dirty⟩)).2) ↔ t.IsNumeric := by
  rw [(Describe.legal _).2, commits_strip, commits_match, Option.isSome_map]
  refine or_iff_right fun hno => hno ?_
  simp [commitsText]

/-- **Commits after a tag.** -/
theorem commits_ok (h : t.IsNumeric) : Describe.VersionOk ⟨.commits t k hash, dirty⟩
    (versionOf (stripDirty (Describe.text ⟨.commits t k hash, dirty⟩)).1 ++
      (stripDirty (Describe.text ⟨.commits t k hash, dirty⟩)).2) where
  digit := (Describe.legal _).1
  noHyphen := commits_hyphen.mpr h
  untagged hash e := by cases e
  past t' ht hpast w hw := by
    rcases hpast with ⟨n, hash', e⟩ | ⟨e, hdirty⟩
    · cases e
      obtain ⟨n, hn⟩ := Option.isSome_iff_exists.mp ht
      obtain ⟨hversion, -, -⟩ := TagName.version_eq hn
      rw [hversion] at hw
      cases hw
      have hmatch := commits_match t k hash
      rw [hn, Option.map_some] at hmatch
      have hof : versionOf (commitsText t.name (Nat.toDigits 10 k) hash.digits) =
          w ++ '+' :: (Nat.toDigits 10 k ++ '.' :: 'g' :: hash.digits) := by
        rw [versionOf, hmatch]
      rw [commits_strip, hof, List.append_assoc, List.cons_append]
      have hplain : Plain (Nat.toDigits 10 k ++ '.' :: 'g' :: hash.digits) := by
        refine plain_append (plain_of fun c hc => isDigit_plain ((digits_spec k).2 c hc)) ?_
        exact plain_append (s := ['.', 'g']) ⟨by decide, by decide⟩ hash.plain
      exact compareVersions_suffix (matchTag_iff.mp hn).1
        (plain_append hplain (Describe.marker_plain _))
    · cases e

end commits

section bare

variable {hash : Hash} {dirty : Bool}

theorem bare_strip (hash : Hash) (dirty : Bool) : stripDirty (Describe.text ⟨.bare hash, dirty⟩) =
    (hash.digits, Describe.marker ⟨.bare hash, dirty⟩) :=
  Describe.strip ⟨.bare hash, dirty⟩ fun _ => hash.not_dirty []

theorem bare_version (h : ∃ c ∈ hash.digits, c.isDigit = false) :
    versionOf hash.digits = "0.0.0+git.".toList ++ hash.digits := by
  rw [versionOf, matchCommits_of_plain hash.plain.2, Hash.matchTag_letter h]

/-- **A bare hash.** -/
theorem bare_ok (h : ∃ c ∈ hash.digits, c.isDigit = false) : Describe.VersionOk ⟨.bare hash, dirty⟩
    (versionOf (stripDirty (Describe.text ⟨.bare hash, dirty⟩)).1 ++
      (stripDirty (Describe.text ⟨.bare hash, dirty⟩)).2) where
  digit := (Describe.legal _).1
  noHyphen := by
    rw [(Describe.legal _).2, bare_strip]
    exact Or.inl hash.plain.2
  untagged hash' e := by
    cases e
    rw [bare_strip, bare_version h]
    refine ⟨rfl, ?_⟩
    intro t ht w hw hlt
    obtain ⟨n, hn⟩ := Option.isSome_iff_exists.mp ht
    rw [(TagName.version_eq hn).1] at hw
    cases hw
    rw [List.append_assoc]
    exact compareVersions_untagged (matchTag_iff.mp hn).1
      (plain_append hash.plain (Describe.marker_plain _)) hlt
  past t ht hpast := by
    rcases hpast with ⟨n, hash', e⟩ | ⟨e, -⟩
    · cases e
    · cases e

/-- Without a letter it is taken for a release. -/
theorem bare_letter (h : Describe.VersionOk ⟨.bare hash, dirty⟩
    (versionOf (stripDirty (Describe.text ⟨.bare hash, dirty⟩)).1 ++
      (stripDirty (Describe.text ⟨.bare hash, dirty⟩)).2)) :
    ∃ c ∈ hash.digits, c.isDigit = false := by
  by_contra hno
  have hdigits : ∀ c ∈ hash.digits, c.isDigit = true := by
    intro c hc
    by_contra hletter
    exact hno ⟨c, hc, by simpa using hletter⟩
  have hrelease : versionOf hash.digits = hash.digits := by
    rw [versionOf, matchCommits_of_plain hash.plain.2, Hash.matchTag_digits hdigits]
  have heq := (h.untagged hash rfl).1
  rw [bare_strip, hrelease] at heq
  have hnil := List.self_eq_append_left.mp (List.append_cancel_right heq)
  cases hnil

end bare

/-- **The version is legal and ordered as documented exactly where the shape of the output tells
its kind.** -/
theorem version_ok_iff (d : Describe) :
    (∃ v, deriveVersion d.text = some v ∧ d.VersionOk v) ↔ d.Recognised := by
  rw [d.version_eq]
  have hone : ∀ {v : Text} {P : Text → Prop}, (∃ w, some v = some w ∧ P w) ↔ P v := by
    intro v P
    constructor
    · rintro ⟨w, e, hw⟩
      cases e
      exact hw
    · intro hv
      exact ⟨v, rfl, hv⟩
  rw [hone]
  obtain ⟨what, dirty⟩ := d
  cases what with
  | tag t => exact ⟨fun h => (Describe.legal _).2.mp h.noHyphen, tag_ok⟩
  | commits t k hash => exact ⟨fun h => commits_hyphen.mp h.noHyphen, commits_ok⟩
  | bare hash => exact ⟨bare_letter, bare_ok⟩

/-- A hash without a letter. -/
def digitHash : Hash := ⟨"1234567".toList, by decide, List.all_eq_true.mp rfl⟩

/-- A tag with a hyphen. -/
def hyphenTag : TagName := ⟨"release-1".toList, by decide⟩

/-- The one is taken for a release, the other keeps its hyphen. -/
theorem digitHash_misread :
    (deriveVersion (Describe.text ⟨.bare digitHash, false⟩) = some "1234567".toList ∧
      ¬ ∃ v, deriveVersion (Describe.text ⟨.bare digitHash, false⟩) = some v ∧
        Describe.VersionOk ⟨.bare digitHash, false⟩ v) ∧
    (deriveVersion (Describe.text ⟨.tag hyphenTag, false⟩) = some "0.0.0+git.release-1".toList ∧
      ¬ ∃ v, deriveVersion (Describe.text ⟨.tag hyphenTag, false⟩) = some v ∧
        Describe.VersionOk ⟨.tag hyphenTag, false⟩ v) := by
  have hdigit : deriveVersion (Describe.text ⟨.bare digitHash, false⟩) =
      some "1234567".toList := by decide
  have hhyphen : deriveVersion (Describe.text ⟨.tag hyphenTag, false⟩) =
      some "0.0.0+git.release-1".toList := by decide
  refine ⟨⟨hdigit, ?_⟩, hhyphen, ?_⟩
  · rintro ⟨v, hv, hok⟩
    obtain rfl := Option.some.inj (hdigit.symm.trans hv)
    exact absurd (hok.untagged digitHash rfl).1 (by decide)
  · rintro ⟨v, hv, hok⟩
    obtain rfl := Option.some.inj (hhyphen.symm.trans hv)
    exact absurd hok.noHyphen (by decide)

end TrigEmit
