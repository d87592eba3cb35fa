import TrigEmitKafka.Rules.Inv

/-!
# Rules — the throttle of one record

What happens to a topic record over its life, as the error log sees it: delivery reports, and
`tek_kafka_topic_dispose`.  `after` is the record's part once a list of them happened, `prints`
what the next one prints, `printed` all that was printed.

`drMsgCb_cases` says once what a report can do; everything else here follows from it.
-/

namespace TrigEmit

/-- What can happen to a record: a delivery report with its error and the clock, or
`tek_kafka_topic_dispose`. -/
inductive Happening where
  | report (err : RespErr) (now : Int)
  | dispose
  deriving DecidableEq

/-- What it does to the record, and what it prints. -/
def Happening.act : Happening → Report → Report × List Line
  | .report err now, tt => drMsgCb tt err now
  | .dispose,        tt => disposeSuppressed tt

/-- The record once `es` happened, oldest first, since its creation. -/
def after (es : List Happening) : Report := es.foldl (fun tt e => (e.act tt).1) .zero

/-- What `e` prints when it happens after `es`. -/
def prints (es : List Happening) (e : Happening) : List Line := (e.act (after es)).2

/-- What is printed while `es` happens to a record. -/
def printing : Report → List Happening → List Line
  | _,  []      => []
  | tt, e :: es => (e.act tt).2 ++ printing (e.act tt).1 es

/-- What is printed while `es` happens, since the record's creation. -/
def printed (es : List Happening) : List Line := printing .zero es

@[simp] theorem after_nil : after [] = .zero := rfl

@[simp] theorem after_concat (es : List Happening) (e : Happening) :
    after (es ++ [e]) = (e.act (after es)).1 := by
  simp only [after, List.foldl_append, List.foldl_cons, List.foldl_nil]

theorem printing_concat (tt : Report) (es : List Happening) (e : Happening) :
    printing tt (es ++ [e]) =
      printing tt es ++ (e.act (es.foldl (fun tt e => (e.act tt).1) tt)).2 := by
  induction es generalizing tt with
  | nil => simp [printing]
  | cons x es ih => simp only [List.cons_append, printing, ih, List.append_assoc, List.foldl_cons]

@[simp] theorem printed_nil : printed [] = [] := rfl

@[simp] theorem printed_concat (es : List Happening) (e : Happening) :
    printed (es ++ [e]) = printed es ++ prints es e := printing_concat .zero es e

/-! ### What one of them does -/

/-- The failure is held back. -/
def Report.Holds (tt : Report) (err : RespErr) (now : Int) : Prop :=
  err = tt.lastErr ∧ now - tt.lastLogTime < errorLogInterval

instance (tt : Report) (err : RespErr) (now : Int) : Decidable (tt.Holds err now) := by
  unfold Report.Holds; infer_instance

/-- The line of a failure that is not held back. -/
def Report.failureLine (tt : Report) (err : RespErr) (now : Int) : Line :=
  if tt.suppressed > 0 then .failed err (some (tt.suppressed, now - tt.lastLogTime))
  else .failed err none

/-- The line of the first success after a failure. -/
def Report.recoveryLine (tt : Report) : Line :=
  if tt.suppressed > 0 then .recovered (some tt.suppressed) else .recovered none

/-- **What a delivery report does**: a failure is held back or printed, a success after a failure
prints a recovery, and any other success prints nothing. -/
theorem drMsgCb_cases (tt : Report) (err : RespErr) (now : Int) :
    (err ≠ noError ∧ tt.Holds err now ∧ drMsgCb tt err now =
      ({ tt with failed := tt.failed + 1, suppressed := tt.suppressed + 1 }, [])) ∨
    (err ≠ noError ∧ ¬ tt.Holds err now ∧ drMsgCb tt err now =
      ({ tt with
          failed := tt.failed + 1, lastErr := err, lastLogTime := now, suppressed := 0 },
        [tt.failureLine err now])) ∨
    (err = noError ∧ tt.lastErr ≠ noError ∧ drMsgCb tt err now =
      ({ tt with
          transferred := tt.transferred + 1, lastErr := noError, lastLogTime := 0
          suppressed := 0 }, [tt.recoveryLine])) ∨
    (err = noError ∧ tt.lastErr = noError ∧ drMsgCb tt err now =
      ({ tt with transferred := tt.transferred + 1 }, [])) := by
  unfold drMsgCb
  by_cases he : err = noError
  · rw [if_neg (not_not.mpr he)]
    by_cases hl : tt.lastErr = noError
    · refine Or.inr (Or.inr (Or.inr ⟨he, hl, ?_⟩))
      rw [if_neg (not_not.mpr hl)]
    · refine Or.inr (Or.inr (Or.inl ⟨he, hl, ?_⟩))
      rw [if_pos hl]; rfl
  · rw [if_pos he]
    by_cases hh : tt.Holds err now
    · refine Or.inl ⟨he, hh, ?_⟩
      unfold logDeliveryFailure
      exact if_pos hh
    · refine Or.inr (Or.inl ⟨he, hh, ?_⟩)
      unfold logDeliveryFailure
      exact if_neg hh

/-- **What a disposal does**: what is held back is printed. -/
theorem disposeSuppressed_cases (tt : Report) :
    (tt.suppressed = 0 ∧ disposeSuppressed tt = (tt, [])) ∨
    (tt.suppressed ≠ 0 ∧ disposeSuppressed tt =
      ({ tt with suppressed := 0 }, [.unreported tt.suppressed tt.lastErr])) := by
  unfold disposeSuppressed
  by_cases hs : tt.suppressed = 0
  · refine Or.inl ⟨hs, ?_⟩
    rw [if_neg (by rw [hs]; decide)]
  · refine Or.inr ⟨hs, ?_⟩
    rw [if_pos (UInt32.pos_iff_ne_zero.mpr hs)]

/-! ### The last report -/

/-- The error of the last report of `es`; a success has `noError`. -/
def lastReport (es : List Happening) : Option RespErr :=
  es.foldl (fun last e => match e with | .report err _ => some err | .dispose => last) none

@[simp] theorem lastReport_nil : lastReport [] = none := rfl

@[simp] theorem lastReport_report (es : List Happening) (err : RespErr) (now : Int) :
    lastReport (es ++ [.report err now]) = some err := by
  simp only [lastReport, List.foldl_append, List.foldl_cons, List.foldl_nil]

@[simp] theorem lastReport_dispose (es : List Happening) :
    lastReport (es ++ [.dispose]) = lastReport es := by
  simp only [lastReport, List.foldl_append, List.foldl_cons, List.foldl_nil]

/-- The throttle remembers the last report's error, and no more. -/
theorem after_lastErr (es : List Happening) :
    (after es).lastErr = (lastReport es).getD noError := by
  induction es using List.reverseRecOn with
  | nil => rfl
  | append_singleton es e ih =>
      rw [after_concat]
      cases e with
      | report err now =>
          rw [lastReport_report, Option.getD_some]
          rcases drMsgCb_cases (after es) err now with ⟨-, ⟨hh, -⟩, h⟩ | ⟨-, -, h⟩ | ⟨he, -, h⟩ |
            ⟨he, hl, h⟩
          · rw [Happening.act, h]; exact hh.symm
          · rw [Happening.act, h]
          · rw [Happening.act, h]; exact he.symm
          · rw [Happening.act, h]; exact hl.trans he.symm
      | dispose =>
          rw [lastReport_dispose, ← ih]
          rcases disposeSuppressed_cases (after es) with ⟨-, h⟩ | ⟨-, h⟩
          · rw [Happening.act, h]
          · rw [Happening.act, h]

end TrigEmit
