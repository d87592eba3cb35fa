import TrigEmitKafka.Results.Accounting
import TrigEmitKafka.Results.Throttle

/-!
# Results — failures held back over a record's whole life

A record is disposed of before it is freed, and its reports may still come in between: while it is
parked, or while `rd_kafka_destroy` serves what is left.  Nothing prints what the throttle holds
back then.

* `lateFailure_dropped`: a record is freed with a failure that no line counts.
* `none_dropped`: in every run in which no such late failure is held back, whatever is freed has
  every failure in a line, or in the count of a line; two callbacks of one record, or a callback and
  its disposal, do not overlap here.
-/

namespace TrigEmit

open Conc (Cfg Label LProg)

/-! ### The lines of a record -/

/-- The lines printed for the record `p`. -/
def linesOf (p : Nat) (log : List (Nat × Line)) : List Line :=
  (log.filter fun x => x.1 = p).map Prod.snd

/-- The failures of `ls` that are printed, or in a count that is. -/
def toldIn (ls : List Line) : Nat := failureLines ls + lineCounts ls

theorem linesOf_append (p : Nat) (log log' : List (Nat × Line)) :
    linesOf p (log ++ log') = linesOf p log ++ linesOf p log' := by
  rw [linesOf, List.filter_append, List.map_append]
  rfl

/-- Lines of one record are lines of that record. -/
theorem linesOf_tagged (p q : Nat) (ls : List Line) :
    linesOf p (ls.map fun l => (q, l)) = if q = p then ls else [] := by
  by_cases h : q = p <;> simp [linesOf, List.filter_map, Function.comp_def, h]

theorem toldIn_append (ls ls' : List Line) : toldIn (ls ++ ls') = toldIn ls + toldIn ls' := by
  simp only [toldIn, failureLines, lineCounts, List.countP_append, List.map_append,
    List.sum_append]
  omega

theorem toldIn_nil : toldIn [] = 0 := rfl

theorem toldIn_singleton (l : Line) :
    toldIn [l] = (if l.isFailure then 1 else 0) + l.count.toNat := by
  rw [toldIn, failureLines_cons, lineCounts, List.map_singleton, List.sum_singleton]
  rfl

/-! ### What one report tells -/

/-- One more failure fits in the count. -/
def Report.HasRoom (tt : Report) : Prop := tt.suppressed.toNat + 1 < 2 ^ 32

/-- A report is printed, counted in the line it prints, or held back. -/
theorem drMsgCb_told {tt : Report} {err : RespErr} {now : Int}
    (hroom : err ≠ noError → tt.Holds err now → tt.HasRoom) :
    toldIn (drMsgCb tt err now).2 + (drMsgCb tt err now).1.suppressed.toNat =
      tt.suppressed.toNat + if err = noError then 0 else 1 := by
  obtain ⟨hcf, hcr⟩ := tt.line_count err now
  rcases drMsgCb_cases tt err now with ⟨he, hh, h⟩ | ⟨he, -, h⟩ | ⟨he, -, h⟩ | ⟨he, -, h⟩
  · have hr := hroom he hh
    rw [h, toldIn_nil, if_neg he, UInt32.toNat_add]
    unfold Report.HasRoom at hr
    simp only [UInt32.toNat_one]
    omega
  · rw [h, toldIn_singleton, hcf, (tt.failureLine_isFailure err now).1, if_pos rfl, if_neg he]
    simp only [UInt32.toNat_zero]
    omega
  · rw [h, toldIn_singleton, hcr, tt.recoveryLine_isRecovery.1, if_pos he]
    simp
  · rw [h, toldIn_nil, if_pos he]
    simp

/-- A disposal prints what is held back. -/
theorem disposeSuppressed_told (tt : Report) :
    toldIn (disposeSuppressed tt).2 = tt.suppressed.toNat ∧
      (disposeSuppressed tt).1.suppressed = 0 := by
  rcases disposeSuppressed_cases tt with ⟨h0, h⟩ | ⟨-, h⟩
  · rw [h]
    exact ⟨by rw [h0]; rfl, h0⟩
  · rw [h, toldIn_singleton]
    exact ⟨Nat.zero_add _, rfl⟩

/-! ### What one step does to the reports -/

/-- A call prints nothing and counts nothing, but that a new record starts with nothing held back
and a disposal prints what is. -/
theorem Op.act_reports {t : Nat} {o : Op} {a : Ans} {T T' : Tab} {d d' : Flow} {r : o.Res}
    (h : o.act t a T d = some (r, T', d')) : d'.served = d.served ∧
      ((d'.report = d.report ∧ d'.log = d.log ∧ T'.disposed = T.disposed) ∨
      (d'.report = Function.update d.report T.topics.next .zero ∧ d'.log = d.log ∧
        T'.disposed = T.disposed) ∨
      ∃ p, d'.report = Function.update d.report p (disposeSuppressed (d.report p)).1 ∧
        d'.log = d.log ++ (disposeSuppressed (d.report p)).2.map (fun l => (p, l)) ∧
        T'.disposed = p :: T.disposed) := by
  cases o <;> cases a <;> simp only [Op.act] at h <;> first
    | (cases h; done)
    | (cases h; exact ⟨rfl, Or.inl ⟨rfl, rfl, rfl⟩⟩)
    | (cases h; exact ⟨rfl, Or.inr (Or.inl ⟨rfl, rfl, rfl⟩)⟩)
    | (cases h; exact ⟨rfl, Or.inr (Or.inr ⟨_, rfl, rfl, rfl⟩)⟩)
    | (obtain ⟨_, _, e⟩ := Option.map_eq_some_iff.mp h; cases e
       exact ⟨rfl, Or.inl ⟨rfl, rfl, rfl⟩⟩)
    | (split at h <;> cases h; exact ⟨rfl, Or.inl ⟨rfl, rfl, rfl⟩⟩)

/-- The environment prints and counts where a callback does its work, and nowhere else. -/
theorem Ev.act_reports {e : Ev} {T : Tab} {d d' : Flow} (h : e.act T d = some d') :
    (d'.served = d.served ∧ d'.report = d.report ∧ d'.log = d.log) ∨
    ∃ i now m u err, e = .cbCount i now ∧ d.inflight[i]? = some ⟨m, .running u err⟩ ∧
      d' = { d.count m err now with inflight := d.inflight.set i ⟨m, .counted u⟩ } := by
  cases e with
  | cbCount i now =>
      simp only [Ev.act] at h
      split at h
      · rename_i m u err hq
        cases h
        exact Or.inr ⟨i, now, m, u, err, rfl, hq, rfl⟩
      · cases h
  | cbEnter i u err => simp only [Ev.act] at h; split at h <;> cases h; exact Or.inl ⟨rfl, rfl, rfl⟩
  | cbReturn i => simp only [Ev.act] at h; split at h <;> cases h; exact Or.inl ⟨rfl, rfl, rfl⟩
  | pollCheck thr => simp only [Ev.act] at h; split at h <;> cases h; exact Or.inl ⟨rfl, rfl, rfl⟩
  | pollReturn thr => simp only [Ev.act] at h; split at h <;> cases h; exact Or.inl ⟨rfl, rfl, rfl⟩

/-! ### Every failure is told, or held back by a record in use -/

/-- Where the failures of the records are: in lines, or held back.  A record that was disposed of
holds nothing back. -/
structure Tells (T : Tab) (d : Flow) : Prop where
  told : ∀ p, failures p d.served = toldIn (linesOf p d.log) + (d.report p).suppressed.toNat
  flushed : ∀ p ∈ T.disposed, (d.report p).suppressed = 0

theorem tells_init : Tells Tab.init Flow.init where
  told _ := rfl
  flushed _ h := by cases h

/-- No report was counted for a pointer not handed out yet. -/
theorem Inv.failures_next {T : Tab} {d : Flow} (h : Inv T d) :
    failures T.topics.next d.served = 0 := by
  refine List.countP_eq_zero.mpr fun r hr hp => ?_
  have hacc : r.msg ∈ d.accepted :=
    h.conserved.mem_iff.mpr (List.mem_append_left _ (List.mem_map_of_mem hr))
  have hlt := h.known _ hacc
  simp only [decide_eq_true_eq] at hp
  omega

/-- A call keeps it. -/
theorem Tells.act {t : Nat} {o : Op} {a : Ans} {T T' : Tab} {d d' : Flow} {r : o.Res}
    (h : Tells T d) (hi : Inv T d) (ha : o.act t a T d = some (r, T', d')) : Tells T' d' := by
  obtain ⟨hs, hcases⟩ := Op.act_reports ha
  rcases hcases with ⟨hr, hl, hdis⟩ | ⟨hr, hl, hdis⟩ | ⟨p, hr, hl, hdis⟩
  · exact ⟨by rw [hs, hr, hl]; exact h.told, by rw [hr, hdis]; exact h.flushed⟩
  · -- a new record: nothing was counted for its pointer, so no line is about it
    refine ⟨fun p => ?_, fun p hp => ?_⟩
    · have htold := h.told p
      rw [hs, hr, hl]
      by_cases e : p = T.topics.next
      · subst e
        rw [hi.failures_next] at htold
        rw [Function.update_self, hi.failures_next]
        simp only [Report.zero, UInt32.toNat_zero]
        omega
      · rw [Function.update_of_ne e]
        exact htold
    · rw [hdis] at hp
      rw [hr]
      by_cases e : p = T.topics.next
      · rw [e, Function.update_self]
        rfl
      · rw [Function.update_of_ne e]
        exact h.flushed p hp
  · -- a disposal
    obtain ⟨hprinted, hzero⟩ := disposeSuppressed_told (d.report p)
    refine ⟨fun q => ?_, fun q hq => ?_⟩
    · rw [hs, hr, hl, linesOf_append, linesOf_tagged, toldIn_append, h.told q]
      by_cases e : q = p
      · subst e
        rw [Function.update_self, if_pos rfl, hprinted, hzero]
        rfl
      · rw [Function.update_of_ne e, if_neg (Ne.symm e), toldIn_nil, Nat.add_zero]
    · rw [hr]
      by_cases e : q = p
      · rw [e, Function.update_self]
        exact hzero
      · rw [Function.update_of_ne e]
        rw [hdis] at hq
        exact h.flushed q ((List.mem_cons.mp hq).resolve_left e)

/-- A report that finds room, and is not held back by a record that was disposed of, keeps it. -/
theorem Tells.count {T : Tab} {d : Flow} {m : Message} {err : RespErr} {now : Int}
    (h : Tells T d)
    (hheld : err ≠ noError → (d.report m.tt).Holds err now →
      m.tt ∉ T.disposed ∧ (d.report m.tt).HasRoom) : Tells T (d.count m err now) := by
  have hone := drMsgCb_told fun he hh => (hheld he hh).2
  refine ⟨fun p => ?_, fun p hp => ?_⟩
  · simp only [Flow.count, failures_append, linesOf_append, linesOf_tagged, toldIn_append, h.told p]
    by_cases e : p = m.tt
    · subst e
      rw [Function.update_self, if_pos rfl]
      have hf : failures m.tt [⟨m, err, now⟩] = if err = noError then 0 else 1 := by
        by_cases he : err = noError <;> simp [failures, he]
      rw [hf]
      omega
    · rw [Function.update_of_ne e, if_neg (Ne.symm e), toldIn_nil]
      have hf : failures p [⟨m, err, now⟩] = 0 := by simp [failures, Ne.symm e]
      omega
  · simp only [Flow.count]
    by_cases e : p = m.tt
    · subst e
      rw [Function.update_self]
      rcases drMsgCb_cases (d.report m.tt) err now with
        ⟨he, hh, -⟩ | ⟨-, -, hd⟩ | ⟨-, -, hd⟩ | ⟨-, -, hd⟩
      · exact absurd hp (hheld he hh).1
      · rw [hd]
      · rw [hd]
      · rw [hd]
        exact h.flushed m.tt hp
    · rw [Function.update_of_ne e]
      exact h.flushed p hp

/-! ### What is freed -/

/-- Where the step counts a failure that is held back, the record was not disposed of, and one
more fits in its count. -/
def HoldsInUse (s : Machine) : Label Ans Ev TableCall → Prop
  | .env (.cbCount i now) => ∀ m u err, s.fr.inflight[i]? = some ⟨m, .running u err⟩ →
      err ≠ noError → (s.fr.report m.tt).Holds err now →
      m.tt ∉ s.sh.disposed ∧ (s.fr.report m.tt).HasRoom
  | _ => True

/-- The record a thread is about to free. -/
def Machine.freeing (s : Machine) (t : Nat) : Option Nat :=
  match s.next t with
  | some (.freeTopic p) => some p
  | _                   => none

/-- A record about to be freed holds nothing back, and every failure counted for it was printed or
is in a count that was. -/
def NoneDropped (s : Machine) : Prop :=
  ∀ t p, s.freeing t = some p → (s.fr.report p).suppressed = 0 ∧
    failures p s.fr.served = failureLines (linesOf p s.fr.log) + lineCounts (linesOf p s.fr.log)

theorem Machine.freeing_eq {s : Machine} {t p : Nat} (h : s.freeing t = some p) :
    s.next t = some (.freeTopic p) := by
  unfold Machine.freeing at h
  split at h
  · rename_i hn
    cases h
    exact hn
  · cases h

/-- What the steps of such a run keep. -/
theorem tells_of_run {ls : List (Label Ans Ev TableCall)} {s : Machine}
    (h : Cfg.RunBy iface tableProg HoldsInUse Machine.initial ls s) : Tells s.sh s.fr := by
  induction h with
  | nil => exact tells_init
  | snoc l hr hC hs ih =>
      have hreach : Machine.Reachable _ := hr.reach
      rcases Cfg.step_act hs with ⟨hsh, hfr⟩ | ⟨t, o, a, r, -, -, ha⟩ | ⟨hsh, e, rfl, he⟩
      · rw [hsh, hfr]
        exact ih
      · exact ih.act hreach.inv ha
      · rw [hsh]
        rcases Ev.act_reports he with ⟨hsv, hrep, hlog⟩ | ⟨i, now, m, u, err, rfl, hq, hd⟩
        · exact ⟨by rw [hsv, hrep, hlog]; exact ih.told, by rw [hrep]; exact ih.flushed⟩
        · have hcount := ih.count (hC m u err hq)
          rw [hd]
          exact ⟨hcount.told, hcount.flushed⟩

/-- **No failure is dropped unless a record holds it back after its disposal.**  The callbacks of one
record, and its disposal, are taken to have their effects one at a time. -/
theorem none_dropped {ls : List (Label Ans Ev TableCall)} {s : Machine}
    (h : Cfg.RunBy iface tableProg HoldsInUse Machine.initial ls s) : NoneDropped s := by
  intro t p hp
  obtain ⟨c, k, ht⟩ := Cfg.next_eq_some.mp (Machine.freeing_eq hp)
  have hreach : s.Reachable := h.reach
  have htells := tells_of_run h
  have hvalid : (Op.freeTopic p).Valid t (s.lock.held t) s.sh s.fr := hreach.good.valid ht
  have htold := htells.told p
  obtain ⟨-, -, -, hdis | hnone⟩ := hvalid
  · have hzero := htells.flushed p hdis
    rw [hzero] at htold
    exact ⟨hzero, htold⟩
  · -- a record that was never sent with has no reports
    have hfail : failures p s.fr.served = 0 := by
      refine List.countP_eq_zero.mpr fun r hr e => ?_
      have hacc : r.msg ∈ s.fr.accepted :=
        hreach.inv.conserved.mem_iff.mpr (List.mem_append_left _ (List.mem_map_of_mem hr))
      simp only [decide_eq_true_eq] at e
      exact hnone _ hacc e.1
    rw [hfail] at htold
    refine ⟨UInt32.toNat_inj.mp ?_, ?_⟩
    · rw [UInt32.toNat_zero]
      omega
    · rw [hfail]
      unfold toldIn at htold
      omega

/-! ### Two runs -/

/-- No failure is held back in the step. -/
def holdsNothing (s : Machine) : Label Ans Ev TableCall → Bool
  | .env (.cbCount i now) =>
      match s.fr.inflight[i]? with
      | some ⟨m, .running _ err⟩ => !decide ((s.fr.report m.tt).Holds err now)
      | _                        => true
  | _ => true

theorem holdsInUse_of_holdsNothing {s : Machine} {l : Label Ans Ev TableCall}
    (h : holdsNothing s l = true) : HoldsInUse s l := by
  cases l with
  | env e =>
      cases e with
      | cbCount i now =>
          intro m u err hq _ hh
          simp only [holdsNothing, hq, Bool.not_eq_true'] at h
          exact absurd hh (of_decide_eq_false h)
      | _ => trivial
  | _ => trivial

/-- The labels of a call up to the moment it frees the parked record. -/
def reaping : List (Label Ans Ev TableCall) :=
  .start 0 (.create (some (.lit "u"))) :: List.replicate 17 (.step 0 .ok)

/-- A topic with a message on its way is dismissed, and the message fails. -/
def lateFirstFailure : List (Label Ans Ev TableCall) :=
  calling 0 (.connect (some (.lit "b"))) 20 ++ calling 0 (.create (some (.lit "t"))) 15 ++
    calling 1 (.send (some (.lit "t")) [1]) 11 ++ calling 2 (.dismiss (some (.lit "t"))) 22 ++
    [.env (.cbEnter 0 (.poll 0) (-195)), .env (.cbCount 0 100), .env (.cbReturn 0)] ++ reaping

/-- The failure is the first of its record, so it is printed, and the record is freed. -/
theorem lateFirstFailure_printed : ∃ s : Machine,
    Cfg.RunBy iface tableProg HoldsInUse Machine.initial lateFirstFailure s ∧
      s.freeing 0 = some 0 ∧ failures 0 s.fr.served = 1 ∧ NoneDropped s := by
  have hrun : (Cfg.runIf iface tableProg holdsNothing lateFirstFailure Machine.initial).map
      (fun s => (Machine.freeing s 0, failures 0 s.fr.served)) = some (some 0, 1) := by
    decide +kernel
  obtain ⟨s, hs, he⟩ := Option.map_eq_some_iff.mp hrun
  simp only [Prod.mk.injEq] at he
  have hby := Cfg.runBy_of_runIf (fun _ _ => holdsInUse_of_holdsNothing) hs
  exact ⟨s, hby, he.1, he.2, none_dropped hby⟩

/-- A topic is dismissed with a message on its way.  Both its failures are counted within a
minute, the second while the record is parked. -/
def lateFailure : List (Label Ans Ev TableCall) :=
  calling 0 (.connect (some (.lit "b"))) 20 ++ calling 0 (.create (some (.lit "t"))) 15 ++
    calling 1 (.send (some (.lit "t")) [1]) 11 ++ calling 1 (.send (some (.lit "t")) [2]) 11 ++
    [.env (.cbEnter 0 (.poll 0) (-195)), .env (.cbCount 0 100), .env (.cbReturn 0)] ++
    calling 2 (.dismiss (some (.lit "t"))) 22 ++
    [.env (.cbEnter 0 (.poll 0) (-195)), .env (.cbCount 0 101), .env (.cbReturn 0)] ++ reaping

/-- The record is freed with the second failure held back, and no line counts it. -/
theorem lateFailure_dropped : ¬ ∀ s : Machine, s.Reachable → NoneDropped s := by
  intro h
  have hrun : (Cfg.run iface tableProg lateFailure Machine.initial).map (fun s =>
      (Machine.freeing s 0, (s.fr.report 0).suppressed)) = some (some 0, 1) := by
    decide +kernel
  obtain ⟨s, hs, he⟩ := Option.map_eq_some_iff.mp hrun
  simp only [Prod.mk.injEq] at he
  have hzero := (h s (Cfg.reach_of_run hs) 0 0 he.1).1
  rw [he.2] at hzero
  cases hzero

end TrigEmit
