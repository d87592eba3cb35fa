import TrigEmitKafka.Rules.Throttle
import Mathlib.Data.Nat.ModEq

/-!
# Results — the throttle of the error log

For every list of delivery reports of one record, served one at a time, with its disposals in
between:

* `failures_conserved`: the failures counted are the lines printed for them, the counts in all
  lines and what is held back, modulo 2^32; recoveries are printed exactly where a run of failures
  ends; and the first failure with a code is never held back.
* `counts_attributed_iff`: the counts printed with an error are of failures with that error if and
  only if no failure with another code comes while failures are held back.
* `failures_spaced`: two lines for a code, with nothing but failures with that code reported in
  between, are an interval apart; in less time than that there are at most as many lines as there
  are uninterrupted runs of a code.
* `rateLimited_iff`: all lines for a code are an interval apart if and only if every run of
  failures with a code starts an interval after the last one a limiter of that code lets through.
-/

namespace TrigEmit

/-! ### Conservation -/

/-- The failures a line counts besides its own. -/
def Line.count : Line → UInt32
  | .failed _ more   => (more.map Prod.fst).getD 0
  | .recovered more  => more.getD 0
  | .unreported n _  => n

/-- The line reports a failure of its own. -/
def Line.isFailure : Line → Bool
  | .failed _ _ => true
  | _           => false

/-- The line reports a recovery. -/
def Line.isRecovery : Line → Bool
  | .recovered _ => true
  | _            => false

/-- The failure lines of `ls`. -/
def failureLines (ls : List Line) : Nat := ls.countP (·.isFailure)

/-- The counts printed in the lines of `ls`. -/
def lineCounts (ls : List Line) : Nat := (ls.map fun l => l.count.toNat).sum

/-- The happening is the report of a success. -/
def Happening.isSuccess : Happening → Bool
  | .report err _ => decide (err = noError)
  | .dispose      => false

theorem Report.failureLine_isFailure (tt : Report) (err : RespErr) (now : Int) :
    (tt.failureLine err now).isFailure = true ∧ (tt.failureLine err now).isRecovery = false := by
  unfold Report.failureLine
  split <;> exact ⟨rfl, rfl⟩

theorem Report.recoveryLine_isRecovery (tt : Report) :
    tt.recoveryLine.isFailure = false ∧ tt.recoveryLine.isRecovery = true := by
  unfold Report.recoveryLine
  split <;> exact ⟨rfl, rfl⟩

/-- A failure line or a recovery line carries what was held back. -/
theorem Report.line_count (tt : Report) (err : RespErr) (now : Int) :
    (tt.failureLine err now).count = tt.suppressed ∧ tt.recoveryLine.count = tt.suppressed := by
  unfold Report.failureLine Report.recoveryLine
  by_cases hs : tt.suppressed > 0
  · rw [if_pos hs, if_pos hs]; exact ⟨rfl, rfl⟩
  · have h0 : tt.suppressed = 0 := by
      by_contra h
      exact hs (UInt32.pos_iff_ne_zero.mpr h)
    rw [if_neg hs, if_neg hs, h0]; exact ⟨rfl, rfl⟩

/-- The failures the lines `ls` account for: their own, and those they count. -/
def accountedFor (ls : List Line) : UInt32 :=
  UInt32.ofNat (failureLines ls) + UInt32.ofNat (lineCounts ls)

theorem accountedFor_nil : accountedFor [] = 0 := rfl

theorem accountedFor_append (ls ls' : List Line) :
    accountedFor (ls ++ ls') = accountedFor ls + accountedFor ls' := by
  unfold accountedFor failureLines lineCounts
  rw [List.countP_append, List.map_append, List.sum_append, UInt32.ofNat_add, UInt32.ofNat_add]
  ac_rfl

theorem accountedFor_singleton (l : Line) :
    accountedFor [l] = (if l.isFailure then 1 else 0) + l.count := by
  have hn : lineCounts [l] = l.count.toNat := by simp [lineCounts]
  have hf : failureLines [l] = if l.isFailure then 1 else 0 := List.countP_singleton ..
  rw [accountedFor, hn, hf, UInt32.ofNat_toNat]
  split <;> rfl

/-- What a happening adds to the failures, its lines and what it holds back account for. -/
theorem Happening.act_failed (e : Happening) (tt : Report) :
    (e.act tt).1.failed + tt.suppressed =
      tt.failed + accountedFor (e.act tt).2 + (e.act tt).1.suppressed := by
  cases e with
  | report err now =>
      obtain ⟨hcf, hcr⟩ := tt.line_count err now
      rcases drMsgCb_cases tt err now with ⟨-, -, h⟩ | ⟨-, -, h⟩ | ⟨-, -, h⟩ | ⟨-, -, h⟩
      · rw [Happening.act, h, accountedFor_nil]; grind
      · rw [Happening.act, h, accountedFor_singleton, hcf,
          (tt.failureLine_isFailure err now).1, if_pos rfl]
        grind
      · rw [Happening.act, h, accountedFor_singleton, hcr, tt.recoveryLine_isRecovery.1,
          if_neg (by decide)]
        grind
      · rw [Happening.act, h, accountedFor_nil]; grind
  | dispose =>
      rcases disposeSuppressed_cases tt with ⟨-, h⟩ | ⟨-, h⟩
      · rw [Happening.act, h, accountedFor_nil]; grind
      · rw [Happening.act, h, accountedFor_singleton]
        simp only [Line.isFailure, Line.count]
        grind

/-- Every failure is printed, counted in a line, or held back. -/
theorem after_failed (es : List Happening) :
    (after es).failed = accountedFor (printed es) + (after es).suppressed := by
  induction es using List.reverseRecOn with
  | nil => rfl
  | append_singleton es e ih =>
      have hstep := e.act_failed (after es)
      rw [after_concat, printed_concat, accountedFor_append, prints]
      grind

/-- Every success is counted. -/
theorem after_transferred (es : List Happening) :
    (after es).transferred = UInt32.ofNat (es.countP (·.isSuccess)) := by
  induction es using List.reverseRecOn with
  | nil => rfl
  | append_singleton es e ih =>
      rw [after_concat, List.countP_append, List.countP_singleton, UInt32.ofNat_add, ← ih]
      cases e with
      | report err now =>
          rw [Happening.act, (drMsgCb_counters _ _ _).1]
          by_cases he : err = noError <;> simp [Happening.isSuccess, he]
      | dispose =>
          rw [Happening.act, (disposeSuppressed_counters _).1]
          simp [Happening.isSuccess]

/-- `e` is a success that ends a run of failures. -/
def EndsRun (es : List Happening) (e : Happening) : Prop :=
  e.isSuccess = true ∧ ∃ err, lastReport es = some err ∧ err ≠ noError

theorem endsRun_iff {es : List Happening} {e : Happening} :
    EndsRun es e ↔ e.isSuccess = true ∧ (after es).lastErr ≠ noError := by
  refine and_congr_right fun _ => ?_
  rw [after_lastErr]
  cases lastReport es <;> simp

/-- A recovery is printed by a success that ends a run of failures, once, and by nothing else. -/
theorem prints_recovery (es : List Happening) (e : Happening) :
    (EndsRun es e → (prints es e).countP (·.isRecovery) = 1) ∧
      (¬ EndsRun es e → (prints es e).countP (·.isRecovery) = 0) := by
  rw [endsRun_iff, prints]
  cases e with
  | report err now =>
      rcases drMsgCb_cases (after es) err now with ⟨he, -, h⟩ | ⟨he, -, h⟩ | ⟨rfl, hl, h⟩ |
        ⟨rfl, hl, h⟩
      · simp [Happening.act, h, Happening.isSuccess, he]
      · simp [Happening.act, h, Happening.isSuccess, he,
          ((after es).failureLine_isFailure err now).2]
      · simp [Happening.act, h, Happening.isSuccess, hl, (after es).recoveryLine_isRecovery.2]
      · simp [Happening.act, h, Happening.isSuccess, hl]
  | dispose =>
      rcases disposeSuppressed_cases (after es) with ⟨-, h⟩ | ⟨-, h⟩ <;>
        simp [Happening.act, h, Happening.isSuccess, Line.isRecovery]

/-- The report of a failure with the code `err` prints its line. -/
def FailureLine (es : List Happening) (err : RespErr) (now : Int) : Prop :=
  ∃ more, prints es (.report err now) = [.failed err more]

theorem Report.failureLine_eq (tt : Report) (err : RespErr) (now : Int) :
    ∃ more, tt.failureLine err now = .failed err more := by
  unfold Report.failureLine
  split <;> exact ⟨_, rfl⟩

/-- A failure prints its line unless it is held back. -/
theorem failureLine_iff {es : List Happening} {err : RespErr} {now : Int} :
    FailureLine es err now ↔ err ≠ noError ∧ ¬ (after es).Holds err now := by
  unfold FailureLine prints
  rcases drMsgCb_cases (after es) err now with ⟨he, hh, h⟩ | ⟨he, hh, h⟩ | ⟨rfl, -, h⟩ | ⟨rfl, -, h⟩
  · simp [Happening.act, h, hh]
  · obtain ⟨more, hmore⟩ := (after es).failureLine_eq err now
    simp [Happening.act, h, hh, he, hmore]
  · have hrec := (after es).recoveryLine_isRecovery.2
    simp only [Happening.act, h, ne_eq, not_true, false_and, iff_false, not_exists]
    intro more e
    rw [List.singleton_inj.mp e] at hrec
    cases hrec
  · simp [Happening.act, h]

/-- The first failure of a run is printed. -/
theorem failureLine_first {es : List Happening} {err : RespErr} (now : Int) (he : err ≠ noError)
    (hl : lastReport es ≠ some err) : FailureLine es err now := by
  refine failureLine_iff.mpr ⟨he, fun hh => ?_⟩
  have hlast := hh.1
  rw [after_lastErr] at hlast
  cases hr : lastReport es with
  | none => rw [hr] at hlast; exact he hlast
  | some err' => rw [hr] at hlast hl; exact hl (congrArg some hlast.symm)

/-- The throttle conserves the failures of `es` and marks its outages. -/
structure Conserved (es : List Happening) : Prop where
  /-- A failure counted has its line, is in a count, or is held back. -/
  failed : (after es).failed.toNat ≡
    failureLines (printed es) + lineCounts (printed es) + (after es).suppressed.toNat [MOD 2 ^ 32]
  transferred : (after es).transferred.toNat ≡ es.countP (·.isSuccess) [MOD 2 ^ 32]
  /-- A recovery is printed at the success that ends a run of failures, once, and nowhere else. -/
  recovered : ∀ es₁ e es₂, es = es₁ ++ e :: es₂ →
    (EndsRun es₁ e → (prints es₁ e).countP (·.isRecovery) = 1) ∧
      (¬ EndsRun es₁ e → (prints es₁ e).countP (·.isRecovery) = 0)
  /-- The first failure with a code, after a success or another code, has its line. -/
  first : ∀ es₁ err now es₂, es = es₁ ++ .report err now :: es₂ → err ≠ noError →
    lastReport es₁ ≠ some err → FailureLine es₁ err now

/-- **The throttle conserves failures and marks outages exactly.** -/
theorem failures_conserved (es : List Happening) : Conserved es where
  failed := by
    have h := congrArg UInt32.toNat (after_failed es)
    rw [accountedFor, UInt32.toNat_add, UInt32.toNat_add, UInt32.toNat_ofNat', UInt32.toNat_ofNat'] at h
    rw [h]
    simp [Nat.ModEq]
  transferred := by
    rw [after_transferred, UInt32.toNat_ofNat']
    exact Nat.mod_modEq _ _
  recovered es₁ e es₂ _ := prints_recovery es₁ e
  first es₁ err now es₂ _ he hl := failureLine_first now he hl

/-! ### Attribution -/

/-- What a line says of failures that have no line of their own: an error and a count. -/
def Line.attributes : Line → Option (RespErr × UInt32)
  | .failed err (some (n, _)) => some (err, n)
  | .unreported n err         => some (err, n)
  | _                         => none

/-- The failures without a line since the last line, once `e` happens to `tt`. -/
def Happening.held (e : Happening) (tt : Report) (held : List RespErr) : List RespErr :=
  match (e.act tt).2, e with
  | _ :: _, _             => []
  | [],     .report err _ => if err = noError then held else held ++ [err]
  | [],     .dispose      => held

/-- The failures of `es` that were held back since the last line. -/
def heldBack (es : List Happening) : List RespErr :=
  (es.foldl (fun s e => ((e.act s.1).1, e.held s.1 s.2)) (Report.zero, [])).2

@[simp] theorem heldBack_nil : heldBack [] = [] := rfl

theorem heldBack_concat (es : List Happening) (e : Happening) :
    heldBack (es ++ [e]) = e.held (after es) (heldBack es) := by
  have hfst : ∀ (es : List Happening) (s : Report × List RespErr),
      (es.foldl (fun s e => ((e.act s.1).1, e.held s.1 s.2)) s).1 =
        es.foldl (fun tt e => (e.act tt).1) s.1 := by
    intro es
    induction es with
    | nil => intro s; rfl
    | cons x es ih => intro s; exact ih _
  simp only [heldBack, List.foldl_append, List.foldl_cons, List.foldl_nil, hfst]
  rfl

/-- What is held back is counted, and has the last report's code. -/
theorem heldBack_spec (es : List Happening) :
    (after es).suppressed = UInt32.ofNat (heldBack es).length ∧
      ∀ x ∈ heldBack es, x = (after es).lastErr ∧ x ≠ noError := by
  induction es using List.reverseRecOn with
  | nil => exact ⟨rfl, fun x hx => by cases hx⟩
  | append_singleton es e ih =>
      obtain ⟨hs, hall⟩ := ih
      rw [after_concat, heldBack_concat]
      cases e with
      | report err now =>
          rcases drMsgCb_cases (after es) err now with ⟨he, hh, h⟩ | ⟨he, hh, h⟩ | ⟨he, hl, h⟩ |
            ⟨he, hl, h⟩
          · simp only [Happening.held, Happening.act, h, if_neg he, List.length_append,
              List.length_singleton, UInt32.ofNat_add, hs]
            refine ⟨rfl, fun x hx => ?_⟩
            rcases List.mem_append.mp hx with hx | hx
            · exact hall x hx
            · rw [List.mem_singleton.mp hx]; exact ⟨hh.1, he⟩
          · simp only [Happening.held, Happening.act, h]
            exact ⟨rfl, fun x hx => by cases hx⟩
          · simp only [Happening.held, Happening.act, h]
            exact ⟨rfl, fun x hx => by cases hx⟩
          · simp only [Happening.held, Happening.act, h, if_pos he]
            exact ⟨hs, hall⟩
      | dispose =>
          rcases disposeSuppressed_cases (after es) with ⟨-, h⟩ | ⟨-, h⟩
          · simp only [Happening.held, Happening.act, h]
            exact ⟨hs, hall⟩
          · simp only [Happening.held, Happening.act, h]
            exact ⟨rfl, fun x hx => by cases hx⟩

/-- Whatever is printed with an error and a count is about failures with that error. -/
def Attributed (es : List Happening) : Prop :=
  ∀ es₁ e es₂, es = es₁ ++ e :: es₂ → ∀ l ∈ prints es₁ e, ∀ err n, l.attributes = some (err, n) →
    n.toNat = (heldBack es₁).length % 2 ^ 32 ∧ ∀ x ∈ heldBack es₁, x = err

/-- No failure with another code comes while failures are held back. -/
def SameCodeWhileHeld (es : List Happening) : Prop :=
  ∀ es₁ err now es₂, es = es₁ ++ .report err now :: es₂ → err ≠ noError →
    err ≠ (after es₁).lastErr → (after es₁).suppressed = 0

/-- **Counts are attributed to the right error if and only if no failure with another code comes
while failures are held back.** -/
theorem counts_attributed_iff (es : List Happening) : Attributed es ↔ SameCodeWhileHeld es := by
  constructor
  · intro h es₁ err now es₂ hes he hne
    by_contra hs
    obtain ⟨hlen, hall⟩ := heldBack_spec es₁
    -- the line of the new code carries the count of the old one
    have hline : Line.failed err (some ((after es₁).suppressed, now - (after es₁).lastLogTime)) ∈
        prints es₁ (.report err now) := by
      rcases drMsgCb_cases (after es₁) err now with ⟨-, hh, -⟩ | ⟨-, -, hd⟩ | ⟨he', -⟩ | ⟨he', -⟩
      · exact absurd hh.1 hne
      · rw [prints, Happening.act, hd, Report.failureLine,
          if_pos (UInt32.pos_iff_ne_zero.mpr hs)]
        exact List.mem_singleton_self _
      · exact absurd he' he
      · exact absurd he' he
    obtain ⟨-, hcode⟩ := h es₁ _ es₂ hes _ hline err _ rfl
    cases hb : heldBack es₁ with
    | nil => rw [hb] at hlen; exact hs hlen
    | cons x xs =>
        have hx : x ∈ heldBack es₁ := by rw [hb]; exact List.mem_cons_self
        exact hne ((hcode x hx).symm.trans (hall x hx).1)
  · intro h es₁ e es₂ hes l hl err n hn
    obtain ⟨hlen, hall⟩ := heldBack_spec es₁
    have hcount : (after es₁).suppressed.toNat = (heldBack es₁).length % 2 ^ 32 := by
      rw [hlen, UInt32.toNat_ofNat']
    cases e with
    | report err' now =>
        rcases drMsgCb_cases (after es₁) err' now with ⟨-, -, hd⟩ | ⟨he, -, hd⟩ | ⟨-, -, hd⟩ |
          ⟨-, -, hd⟩
        · rw [prints, Happening.act, hd] at hl; cases hl
        · rw [prints, Happening.act, hd, List.mem_singleton] at hl
          subst hl
          unfold Report.failureLine at hn
          split at hn
          · rename_i hpos
            cases hn
            have hsame : err = (after es₁).lastErr := by
              by_contra hne
              exact UInt32.pos_iff_ne_zero.mp hpos (h es₁ err now es₂ hes he hne)
            exact ⟨hcount, fun x hx => (hall x hx).1.trans hsame.symm⟩
          · cases hn
        · rw [prints, Happening.act, hd, List.mem_singleton] at hl
          subst hl
          unfold Report.recoveryLine at hn
          split at hn <;> cases hn
        · rw [prints, Happening.act, hd] at hl; cases hl
    | dispose =>
        rcases disposeSuppressed_cases (after es₁) with ⟨-, hd⟩ | ⟨-, hd⟩
        · rw [prints, Happening.act, hd] at hl; cases hl
        · rw [prints, Happening.act, hd, List.mem_singleton] at hl
          subst hl
          cases hn
          exact ⟨hcount, fun x hx => (hall x hx).1⟩

/-- The broker goes down, and a second failure is held back; the next message times out. -/
def outageThenTimeout : List Happening :=
  [.report (-195) 100, .report (-195) 101, .report (-192) 102]

/-- The line of the timeout counts the failure of the broker. -/
theorem outageThenTimeout_misattributed : ¬ Attributed outageThenTimeout := by
  intro h
  obtain ⟨-, hcode⟩ := h [.report (-195) 100, .report (-195) 101] (.report (-192) 102) [] rfl
    (.failed (-192) (some (1, 2))) (by decide) (-192) 1 rfl
  exact absurd (hcode (-195) (by decide)) (by decide)

/-! ### The rate limit -/

/-- The clock readings of the reports of `es`. -/
def times : List Happening → List Int
  | []                   => []
  | .report _ now :: es  => now :: times es
  | .dispose :: es       => times es

/-- The clock does not go back. -/
def Clock (es : List Happening) : Prop := (times es).Pairwise (· ≤ ·)

/-- Any two failure lines for a code are an interval apart. -/
def Spaced (es : List Happening) : Prop :=
  ∀ es₁ err now es₂ now' es₃, es = es₁ ++ .report err now :: (es₂ ++ .report err now' :: es₃) →
    FailureLine es₁ err now → FailureLine (es₁ ++ .report err now :: es₂) err now' →
    errorLogInterval ≤ now' - now

/-- Two codes take turns. -/
def codesTakeTurns : List Happening :=
  [.report (-195) 100, .report (-192) 101, .report (-195) 102]

/-- Failures and successes take turns. -/
def outcomesTakeTurns : List Happening :=
  [.report (-195) 100, .report noError 101, .report (-195) 102]

/-- Another code in between, or a success, and the same line is printed again at once. -/
theorem takeTurns_not_spaced : (Clock codesTakeTurns ∧ ¬ Spaced codesTakeTurns) ∧
    Clock outcomesTakeTurns ∧ ¬ Spaced outcomesTakeTurns := by
  refine ⟨⟨?_, fun h => ?_⟩, ?_, fun h => ?_⟩
  · simp [Clock, codesTakeTurns, times]
  · have hlate := h [] (-195) 100 [.report (-192) 101] 102 [] rfl ⟨none, by decide⟩
      ⟨none, by decide⟩
    exact absurd hlate (by decide)
  · simp [Clock, outcomesTakeTurns, times]
  · have hlate := h [] (-195) 100 [.report noError 101] 102 [] rfl ⟨none, by decide⟩
      ⟨none, by decide⟩
    exact absurd hlate (by decide)

/-- The runs of failures with one code in `es`, where `last` was reported before. -/
def codeRuns : Option RespErr → List Happening → Nat
  | _,    []                  => 0
  | last, .report err _ :: es =>
      (if err ≠ noError ∧ last ≠ some err then 1 else 0) + codeRuns (some err) es
  | last, .dispose :: es      => codeRuns last es

/-- Nothing but failures with the code `err` is reported in `es`. -/
def Only (err : RespErr) (es : List Happening) : Prop :=
  ∀ e ∈ es, e = .dispose ∨ ∃ now, e = .report err now

/-- After a line for `err`, and with only failures with `err` since, the throttle remembers `err`
and a line no earlier. -/
theorem lastLogTime_only {es₁ es₂ : List Happening} {err : RespErr} {now : Int}
    (hl : FailureLine es₁ err now) (ho : Only err es₂) :
    (after (es₁ ++ .report err now :: es₂)).lastErr = err ∧
      now ≤ (after (es₁ ++ .report err now :: es₂)).lastLogTime := by
  obtain ⟨he, hnh⟩ := failureLine_iff.mp hl
  induction es₂ using List.reverseRecOn with
  | nil =>
      rw [after_concat]
      rcases drMsgCb_cases (after es₁) err now with ⟨-, hh, -⟩ | ⟨-, -, h⟩ | ⟨he', -⟩ | ⟨he', -⟩
      · exact absurd hh hnh
      · rw [Happening.act, h]; exact ⟨rfl, le_refl _⟩
      · exact absurd he' he
      · exact absurd he' he
  | append_singleton es₂ e ih =>
      obtain ⟨hlast, hle⟩ := ih fun x hx => ho x (List.mem_append_left _ hx)
      rw [← List.cons_append, ← List.append_assoc, after_concat]
      rcases ho e (List.mem_append_right _ (List.mem_singleton_self _)) with rfl | ⟨now', rfl⟩
      · rcases disposeSuppressed_cases (after (es₁ ++ .report err now :: es₂)) with
          ⟨-, h⟩ | ⟨-, h⟩ <;> rw [Happening.act, h] <;> exact ⟨hlast, hle⟩
      · rcases drMsgCb_cases (after (es₁ ++ .report err now :: es₂)) err now' with
          ⟨-, -, h⟩ | ⟨-, hh, h⟩ | ⟨he', -⟩ | ⟨he', -⟩
        · rw [Happening.act, h]; exact ⟨hlast, hle⟩
        · rw [Happening.act, h]
          refine ⟨rfl, ?_⟩
          -- the next line is an interval later
          have hlate : ¬ now' - (after (es₁ ++ .report err now :: es₂)).lastLogTime <
              errorLogInterval := fun hlt => hh ⟨hlast.symm, hlt⟩
          unfold errorLogInterval at hlate
          simp only
          omega
        · exact absurd he' he
        · exact absurd he' he

theorem failureLines_cons (l : Line) (ls : List Line) :
    failureLines (l :: ls) = (if l.isFailure then 1 else 0) + failureLines ls := by
  rw [failureLines, List.countP_cons, add_comm]; rfl

/-- In less than an interval, each run of a code prints one line at most.  `c` is 0 when the run
that goes on has printed its line. -/
theorem window_lines {es : List Happening} :
    ∀ (tt : Report) (last : Option RespErr) (c : Nat),
      (∀ t ∈ times es, ∀ t' ∈ times es, t' - t < errorLogInterval) →
      (c = 0 → ∀ err, last = some err → err ≠ noError → tt.lastErr = err ∧
        ∀ t ∈ times es, t - tt.lastLogTime < errorLogInterval) →
      failureLines (printing tt es) ≤ codeRuns last es + c := by
  induction es with
  | nil => intro tt last c _ _; exact Nat.zero_le _
  | cons e es ih =>
      intro tt last c hw hc
      cases e with
      | dispose =>
          have hkeep := ih (disposeSuppressed tt).1 last c hw
          rcases disposeSuppressed_cases tt with ⟨-, h⟩ | ⟨-, h⟩
          · rw [h] at hkeep
            simp only [printing, Happening.act, h, codeRuns, List.nil_append]
            exact hkeep hc
          · rw [h] at hkeep
            simp only [printing, Happening.act, h, codeRuns, List.singleton_append,
              failureLines_cons, Line.isFailure]
            have := hkeep hc
            simpa using this
      | report err now =>
          have hw' : ∀ t ∈ times es, ∀ t' ∈ times es, t' - t < errorLogInterval := fun t ht t' ht' =>
            hw t (List.mem_cons_of_mem _ ht) t' (List.mem_cons_of_mem _ ht')
          rcases drMsgCb_cases tt err now with ⟨he, hh, h⟩ | ⟨he, hh, h⟩ | ⟨rfl, -, h⟩ | ⟨rfl, -, h⟩
          · -- held back: the run goes on, or is a new one without its line yet
            simp only [printing, Happening.act, h, codeRuns, List.nil_append]
            by_cases hl : last = some err
            · rw [if_neg fun hx => hx.2 hl, Nat.zero_add]
              refine ih _ _ c hw' fun h0 err' e he' => ?_
              cases e
              obtain ⟨h₁, h₂⟩ := hc h0 err hl he
              exact ⟨h₁, fun t ht => h₂ t (List.mem_cons_of_mem _ ht)⟩
            · rw [if_pos ⟨he, hl⟩]
              have := ih { tt with failed := tt.failed + 1, suppressed := tt.suppressed + 1 }
                (some err) 1 hw' (fun h0 => absurd h0 (by decide))
              omega
          · -- printed: a new run, or one that had no line yet
            simp only [printing, Happening.act, h, codeRuns, List.singleton_append,
              failureLines_cons, (tt.failureLine_isFailure err now).1, if_true]
            have hrest := ih { tt with
              failed := tt.failed + 1, lastErr := err, lastLogTime := now, suppressed := 0 }
              (some err) 0 hw' fun _ err' e _ => by
                cases e
                exact ⟨rfl, fun t ht => hw now List.mem_cons_self t (List.mem_cons_of_mem _ ht)⟩
            by_cases hl : last = some err
            · rw [if_neg fun hx => hx.2 hl]
              have hc1 : c ≠ 0 := by
                intro h0
                obtain ⟨h₁, h₂⟩ := hc h0 err hl he
                exact hh ⟨h₁.symm, h₂ now List.mem_cons_self⟩
              omega
            · rw [if_pos ⟨he, hl⟩]
              omega
          · simp only [printing, Happening.act, h, codeRuns, List.singleton_append,
              failureLines_cons, tt.recoveryLine_isRecovery.1]
            have := ih { tt with
              transferred := tt.transferred + 1, lastErr := noError, lastLogTime := 0
              suppressed := 0 } (some noError) c hw' fun _ err' e he' => by
                cases e; exact absurd rfl he'
            simpa using this
          · simp only [printing, Happening.act, h, codeRuns, List.nil_append]
            have := ih { tt with transferred := tt.transferred + 1 } (some noError) c hw'
              fun _ err' e he' => by cases e; exact absurd rfl he'
            simpa using this

/-- The failure lines of `es` are limited. -/
structure Limited (es : List Happening) : Prop where
  /-- Two lines for a code are an interval apart when only failures with that code are reported
  between them. -/
  spaced : ∀ es₁ err now es₂ now' es₃,
    es = es₁ ++ .report err now :: (es₂ ++ .report err now' :: es₃) → Only err es₂ →
    FailureLine es₁ err now → FailureLine (es₁ ++ .report err now :: es₂) err now' →
    errorLogInterval ≤ now' - now
  /-- In less than an interval there are at most as many lines as uninterrupted runs of a code. -/
  window : ∀ es₁ es₂ es₃, es = es₁ ++ (es₂ ++ es₃) →
    (∀ t ∈ times es₂, ∀ t' ∈ times es₂, t' - t < errorLogInterval) →
    failureLines (printing (after es₁) es₂) ≤ codeRuns none es₂

/-- **Failure lines are limited within an uninterrupted run of a code.** -/
theorem failures_spaced (es : List Happening) : Limited es where
  spaced es₁ err now es₂ now' es₃ _ ho hl hl' := by
    obtain ⟨hlast, hle⟩ := lastLogTime_only hl ho
    obtain ⟨-, hnh⟩ := failureLine_iff.mp hl'
    have hlate : ¬ now' - (after (es₁ ++ .report err now :: es₂)).lastLogTime < errorLogInterval :=
      fun hlt => hnh ⟨hlast.symm, hlt⟩
    unfold errorLogInterval at hlate ⊢
    omega
  window es₁ es₂ es₃ _ hw := by
    have := window_lines (after es₁) none 0 hw fun _ err e => by cases e
    simpa using this

/-! ### One limiter for each code -/

/-- A limiter of the code `err` that let a failure through at `last`, once `e` happens: a failure
with that code passes when an interval went by. -/
def Happening.letThrough (err : RespErr) (last : Option Int) : Happening → Option Int
  | .report err' now =>
      if err' = err ∧ ∀ t ∈ last, errorLogInterval ≤ now - t then some now else last
  | .dispose         => last

/-- When a limiter of the code `err` last let a failure of `es` through. -/
def lastLetThrough (err : RespErr) (es : List Happening) : Option Int :=
  es.foldl (fun last e => e.letThrough err last) none

@[simp] theorem lastLetThrough_nil (err : RespErr) : lastLetThrough err [] = none := rfl

@[simp] theorem lastLetThrough_concat (err : RespErr) (es : List Happening) (e : Happening) :
    lastLetThrough err (es ++ [e]) = e.letThrough err (lastLetThrough err es) := by
  simp only [lastLetThrough, List.foldl_append, List.foldl_cons, List.foldl_nil]

/-- Every run of failures with a code starts an interval after the last failure that a limiter of
that code lets through. -/
def RunsApart (es : List Happening) : Prop :=
  ∀ es₁ err now es₂, es = es₁ ++ .report err now :: es₂ → err ≠ noError →
    lastReport es₁ ≠ some err → ∀ t ∈ lastLetThrough err es₁, errorLogInterval ≤ now - t

/-- A split of `es ++ [e]` is one of `es`, or splits `e` off. -/
theorem concat_split {es es₁ es₂ : List Happening} {e x : Happening}
    (h : es ++ [e] = es₁ ++ x :: es₂) :
    (es₁ = es ∧ x = e ∧ es₂ = []) ∨ ∃ es₃, es₂ = es₃ ++ [e] ∧ es = es₁ ++ x :: es₃ := by
  cases es₂ using List.reverseRecOn with
  | nil =>
      obtain ⟨h₁, h₂⟩ := List.append_inj' h rfl
      exact Or.inl ⟨h₁.symm, (List.singleton_inj.mp h₂).symm, rfl⟩
  | append_singleton es₃ y =>
      rw [← List.cons_append, ← List.append_assoc] at h
      obtain ⟨h₁, h₂⟩ := List.append_inj' h rfl
      exact Or.inr ⟨es₃, by rw [List.singleton_inj.mp h₂], h₁⟩

theorem RunsApart.init {es : List Happening} {e : Happening} (h : RunsApart (es ++ [e])) :
    RunsApart es := by
  intro es₁ err now es₂ hes
  refine h es₁ err now (es₂ ++ [e]) ?_
  rw [hes, List.append_assoc, List.cons_append]

theorem Spaced.of_append {es₁ es₂ : List Happening} (h : Spaced (es₁ ++ es₂)) : Spaced es₁ := by
  intro es₃ err now es₄ now' es₅ hes
  refine h es₃ err now es₄ now' (es₅ ++ es₂) ?_
  rw [hes]
  simp

theorem FailureLine.ne_noError {es : List Happening} {err : RespErr} {now : Int}
    (h : FailureLine es err now) : err ≠ noError := (failureLine_iff.mp h).1

/-- The throttle's clock is the limiter's of the code it remembers. -/
def Synced (es : List Happening) : Prop :=
  (after es).lastErr ≠ noError →
    lastLetThrough (after es).lastErr es = some (after es).lastLogTime

/-- A failure is printed when the limiter of its code lets it through. -/
theorem failureLine_iff_letThrough {es : List Happening} {err : RespErr} {now : Int}
    (hs : Synced es) (hr : RunsApart (es ++ [.report err now])) (he : err ≠ noError) :
    FailureLine es err now ↔ ∀ t ∈ lastLetThrough err es, errorLogInterval ≤ now - t := by
  by_cases hl : lastReport es = some err
  · -- the run goes on, and both look at the same clock
    have hlast : (after es).lastErr = err := by rw [after_lastErr, hl]; rfl
    have ht : lastLetThrough err es = some (after es).lastLogTime := by
      have := hs (by rw [hlast]; exact he)
      rwa [hlast] at this
    rw [failureLine_iff, ht, Report.Holds, hlast]
    simp [he]
  · exact ⟨fun _ => hr es err now [] rfl he hl, fun _ => failureLine_first now he hl⟩

theorem synced_of_runsApart {es : List Happening} (h : RunsApart es) : Synced es := by
  induction es using List.reverseRecOn with
  | nil => intro hl; exact absurd rfl hl
  | append_singleton es e ih =>
      have hs := ih h.init
      intro hl
      rw [after_concat] at hl ⊢
      rw [lastLetThrough_concat]
      cases e with
      | dispose =>
          rcases disposeSuppressed_cases (after es) with ⟨-, hd⟩ | ⟨-, hd⟩ <;>
            rw [Happening.act, hd] at hl ⊢ <;> exact hs hl
      | report err now =>
          rcases drMsgCb_cases (after es) err now with ⟨he, hh, hd⟩ | ⟨he, hh, hd⟩ |
            ⟨-, -, hd⟩ | ⟨-, hn, hd⟩
          · rw [Happening.act, hd] at hl ⊢
            have hno : ¬ ∀ t ∈ lastLetThrough err es, errorLogInterval ≤ now - t := by
              rw [← failureLine_iff_letThrough hs h he, failureLine_iff]
              exact fun hx => hx.2 hh
            rw [Happening.letThrough, if_neg]
            · exact hs hl
            · rw [← hh.1]
              exact fun hx => hno hx.2
          · rw [Happening.act, hd]
            rw [Happening.letThrough, if_pos]
            exact ⟨rfl, (failureLine_iff_letThrough hs h he).mp (failureLine_iff.mpr ⟨he, hh⟩)⟩
          · rw [Happening.act, hd] at hl; exact absurd rfl hl
          · rw [Happening.act, hd] at hl; exact absurd hn hl

/-- A line for a code is no later than what its limiter last let through. -/
theorem line_le_lastLetThrough {es : List Happening} (h : RunsApart es) {es₁ es₂ : List Happening}
    {err : RespErr} {now : Int} (hes : es = es₁ ++ .report err now :: es₂)
    (hl : FailureLine es₁ err now) : ∃ t ∈ lastLetThrough err es, now ≤ t := by
  induction es using List.reverseRecOn generalizing es₂ with
  | nil => cases List.nil_eq_append_iff.mp hes |>.2
  | append_singleton es e ih =>
      have hs := synced_of_runsApart h.init
      rw [lastLetThrough_concat]
      rcases concat_split hes with ⟨rfl, rfl, -⟩ | ⟨es₃, -, hes'⟩
      · refine ⟨now, ?_, le_refl _⟩
        rw [Happening.letThrough, if_pos]
        · rfl
        · exact ⟨rfl, (failureLine_iff_letThrough hs h hl.ne_noError).mp hl⟩
      · obtain ⟨t, ht, hle⟩ := ih h.init hes'
        cases e with
        | dispose => exact ⟨t, ht, hle⟩
        | report err' now' =>
            rw [Happening.letThrough]
            split
            · rename_i hx
              refine ⟨now', rfl, ?_⟩
              have hlate := hx.2 t ht
              unfold errorLogInterval at hlate
              omega
            · exact ⟨t, ht, hle⟩

/-- What the limiter of a code let through last has its line. -/
theorem lastLetThrough_line {es : List Happening} (h : RunsApart es) {err : RespErr}
    (he : err ≠ noError) {t : Int} (ht : t ∈ lastLetThrough err es) :
    ∃ es₁ es₂, es = es₁ ++ .report err t :: es₂ ∧ FailureLine es₁ err t := by
  induction es using List.reverseRecOn with
  | nil => cases ht
  | append_singleton es e ih =>
      have hearlier : t ∈ lastLetThrough err es →
          ∃ es₁ es₂, es ++ [e] = es₁ ++ .report err t :: es₂ ∧ FailureLine es₁ err t := by
        intro ht
        obtain ⟨es₁, es₂, hes, hl⟩ := ih h.init ht
        exact ⟨es₁, es₂ ++ [e], by rw [hes, List.append_assoc, List.cons_append], hl⟩
      rw [lastLetThrough_concat] at ht
      cases e with
      | dispose => exact hearlier ht
      | report err' now =>
          rw [Happening.letThrough] at ht
          split at ht
          · rename_i hx
            obtain ⟨rfl, hx⟩ := hx
            cases ht
            have hs := synced_of_runsApart h.init
            exact ⟨es, [], rfl, (failureLine_iff_letThrough hs h he).mpr hx⟩
          · exact hearlier ht

theorem spaced_of_runsApart {es : List Happening} (h : RunsApart es) : Spaced es := by
  induction es using List.reverseRecOn with
  | nil =>
      intro es₁ err now es₂ now' es₃ hes
      cases List.nil_eq_append_iff.mp hes |>.2
  | append_singleton es e ih =>
      intro es₁ err now es₂ now' es₃ hes hl hl'
      have hes' : es ++ [e] = (es₁ ++ .report err now :: es₂) ++ .report err now' :: es₃ := by
        rw [hes]; simp
      rcases concat_split hes' with ⟨heq, rfl, -⟩ | ⟨es₄, -, heq⟩
      · -- the second line is the last happening's
        obtain ⟨t, ht, hle⟩ := line_le_lastLetThrough h.init heq.symm hl
        have hs := synced_of_runsApart h.init
        rw [heq] at hl'
        have hlate := (failureLine_iff_letThrough hs h hl.ne_noError).mp hl' t ht
        unfold errorLogInterval at hlate ⊢
        omega
      · refine ih h.init es₁ err now es₂ now' es₄ ?_ hl hl'
        rw [heq]; simp

theorem runsApart_of_spaced {es : List Happening} (h : Spaced es) : RunsApart es := by
  induction es using List.reverseRecOn with
  | nil =>
      intro es₁ err now es₂ hes
      cases List.nil_eq_append_iff.mp hes |>.2
  | append_singleton es e ih =>
      intro es₁ err now es₂ hes he hl t ht
      have hr := ih h.of_append
      rcases concat_split hes with ⟨rfl, rfl, -⟩ | ⟨es₃, -, hes'⟩
      · obtain ⟨es₂, es₃, rfl, hline⟩ := lastLetThrough_line hr he ht
        refine h es₂ err t es₃ now [] ?_ hline (failureLine_first now he hl)
        simp
      · exact hr es₁ err now es₃ hes' he hl t ht

/-- The failures reported in `es`, by their codes. -/
def failureCodes : List Happening → List RespErr
  | []                   => []
  | .report err _ :: es  => if err = noError then failureCodes es else err :: failureCodes es
  | .dispose :: es       => failureCodes es

theorem mem_failureCodes {es₁ es₂ : List Happening} {err : RespErr} {now : Int}
    (he : err ≠ noError) : err ∈ failureCodes (es₁ ++ .report err now :: es₂) := by
  induction es₁ with
  | nil => simp [failureCodes, he]
  | cons e es₁ ih =>
      cases e with
      | dispose => exact ih
      | report err' now' =>
          rw [List.cons_append, failureCodes]
          split
          · exact ih
          · exact List.mem_cons_of_mem _ ih

/-- The code a failure line reports. -/
def Line.code : Line → Option RespErr
  | .failed err _ => some err
  | _             => none

theorem length_filterMap_code (ls : List Line) :
    (ls.filterMap Line.code).length = failureLines ls := by
  induction ls with
  | nil => rfl
  | cons l ls ih =>
      rw [failureLines_cons, ← ih, List.filterMap_cons]
      cases l <;> simp [Line.code, Line.isFailure, add_comm]

/-- A failure line printed for `err` is a failure with that code. -/
theorem mem_prints_code {es : List Happening} {e : Happening} {err : RespErr}
    (h : err ∈ (prints es e).filterMap Line.code) :
    ∃ now, e = .report err now ∧ FailureLine es err now ∧
      (prints es e).filterMap Line.code = [err] := by
  rw [prints] at h ⊢
  cases e with
  | dispose =>
      rcases disposeSuppressed_cases (after es) with ⟨-, hd⟩ | ⟨-, hd⟩ <;>
        simp [Happening.act, hd, Line.code] at h
  | report err' now =>
      rcases drMsgCb_cases (after es) err' now with ⟨-, -, hd⟩ | ⟨he, hh, hd⟩ | ⟨-, -, hd⟩ |
        ⟨-, -, hd⟩
      · simp [Happening.act, hd] at h
      · obtain ⟨more, hmore⟩ := (after es).failureLine_eq err' now
        simp only [Happening.act, hd, hmore, List.filterMap_cons, Line.code, List.filterMap_nil,
          List.mem_singleton] at h ⊢
        subst h
        exact ⟨now, rfl, failureLine_iff.mpr ⟨he, hh⟩, rfl⟩
      · have hrec := (after es).recoveryLine_isRecovery.2
        cases hr : (after es).recoveryLine <;>
          simp [Happening.act, hd, hr, Line.code, Line.isRecovery] at h hrec
      · simp [Happening.act, hd] at h

/-- What is printed after `es₁`, one happening more. -/
theorem printing_after_concat (es₁ es₂ : List Happening) (e : Happening) :
    printing (after es₁) (es₂ ++ [e]) = printing (after es₁) es₂ ++ prints (es₁ ++ es₂) e := by
  rw [printing_concat, prints, after, after, List.foldl_append]

theorem mem_printing_code {es₁ es₂ : List Happening} {err : RespErr}
    (h : err ∈ (printing (after es₁) es₂).filterMap Line.code) :
    ∃ es₃ now es₄, es₂ = es₃ ++ .report err now :: es₄ ∧ FailureLine (es₁ ++ es₃) err now := by
  induction es₂ using List.reverseRecOn with
  | nil => cases h
  | append_singleton es₂ e ih =>
      rw [printing_after_concat, List.filterMap_append, List.mem_append] at h
      rcases h with h | h
      · obtain ⟨es₃, now, es₄, hes, hl⟩ := ih h
        exact ⟨es₃, now, es₄ ++ [e], by rw [hes, List.append_assoc, List.cons_append], hl⟩
      · obtain ⟨now, rfl, hl, -⟩ := mem_prints_code h
        exact ⟨es₂, now, [], rfl, hl⟩

theorem mem_times {es₁ es₂ : List Happening} {err : RespErr} {now : Int} :
    now ∈ times (es₁ ++ .report err now :: es₂) := by
  induction es₁ with
  | nil => exact List.mem_cons_self
  | cons e es₁ ih =>
      cases e with
      | dispose => exact ih
      | report err' now' => exact List.mem_cons_of_mem _ ih

theorem times_append (es₁ es₂ : List Happening) : times (es₁ ++ es₂) = times es₁ ++ times es₂ := by
  induction es₁ with
  | nil => rfl
  | cons e es₁ ih => cases e <;> simp [times, ih]

/-- In less than an interval no code has two lines. -/
theorem window_nodup {es₁ es₂ : List Happening} (hs : Spaced (es₁ ++ es₂))
    (hw : ∀ t ∈ times es₂, ∀ t' ∈ times es₂, t' - t < errorLogInterval) :
    ((printing (after es₁) es₂).filterMap Line.code).Nodup := by
  induction es₂ using List.reverseRecOn with
  | nil => exact List.nodup_nil
  | append_singleton es₂ e ih =>
      rw [← List.append_assoc] at hs
      have hrest := ih hs.of_append fun t ht t' ht' => hw t (by simp [times_append, ht]) t'
        (by simp [times_append, ht'])
      rw [printing_after_concat, List.filterMap_append]
      cases hp : (prints (es₁ ++ es₂) e).filterMap Line.code with
      | nil => rw [List.append_nil]; exact hrest
      | cons err errs =>
          have hmem : err ∈ (prints (es₁ ++ es₂) e).filterMap Line.code := by simp [hp]
          obtain ⟨now', rfl, hl', hone⟩ := mem_prints_code hmem
          rw [← hp, hone]
          refine List.nodup_append.mpr ⟨hrest, List.nodup_singleton _, ?_⟩
          intro x hx y hy
          rw [List.mem_singleton.mp hy]
          rintro rfl
          -- an earlier line for this code would be an interval before
          obtain ⟨es₃, now, es₄, rfl, hl⟩ := mem_printing_code hx
          have hlate := hs (es₁ ++ es₃) _ now es₄ now' [] (by simp) hl (by simpa using hl')
          have hsoon := hw now (by rw [List.append_assoc]; exact mem_times) now'
            (by simp [times_append, times])
          omega

/-- The failure lines of `es` are rate limited for each code. -/
structure RateLimited (es : List Happening) : Prop where
  spaced : Spaced es
  /-- In less than an interval there are at most as many lines as distinct codes. -/
  window : ∀ es₁ es₂ es₃, es = es₁ ++ (es₂ ++ es₃) →
    (∀ t ∈ times es₂, ∀ t' ∈ times es₂, t' - t < errorLogInterval) →
    failureLines (printing (after es₁) es₂) ≤ (failureCodes es₂).toFinset.card

/-- Lines for a code that are an interval apart are at most one for each code in less time. -/
theorem rateLimited_of_spaced {es : List Happening} (h : Spaced es) : RateLimited es where
  spaced := h
  window es₁ es₂ es₃ hes hw := by
    rw [hes, ← List.append_assoc] at h
    have hnodup := window_nodup h.of_append hw
    rw [← length_filterMap_code, ← List.toFinset_card_of_nodup hnodup]
    refine Finset.card_le_card fun err herr => ?_
    rw [List.mem_toFinset] at herr ⊢
    obtain ⟨es₄, now, es₅, rfl, hl⟩ := mem_printing_code herr
    exact mem_failureCodes hl.ne_noError

/-- **Failure lines are rate limited for each code if and only if every run of failures with a code
starts an interval after the last failure that a limiter of that code lets through.** -/
theorem rateLimited_iff (es : List Happening) : RateLimited es ↔ RunsApart es :=
  ⟨fun h => runsApart_of_spaced h.spaced, fun h => rateLimited_of_spaced (spaced_of_runsApart h)⟩

end TrigEmit
