import TrigEmitKafka.Source.Table
import TrigEmitKafka.Support.LockLogic

/-!
# Rules — the invariant every call keeps

What holds between any two calls of any threads, whoever holds the lock (`Inv`): a message in
flight names a live record; the messages accepted are those counted and those not counted yet;
a record's counters are the reports counted for it; a poll thread's producer is live and has its
`rd_kafka_t`; there is at most one `rd_kafka_t`; and the stored parameters are those the current
producer was built from.

`View` is what a thread may know of the unguarded state: which records the messages in flight may
name, the messages accepted so far, a prefix of the reports counted, and its own throwaway
configurations.  `logic` is the `Conc.Logic` of the two.
-/

namespace TrigEmit

open Store (Heap)
open Conc (Held Logic)

/-! ### What the environment can do -/

/-- The message's report is not counted yet. -/
def Pending.uncounted (q : Pending) : Bool :=
  match q.stage with
  | .counted _ => false
  | _          => true

/-- The messages in flight whose report is not counted yet. -/
def uncounted (qs : List Pending) : List Message := (qs.filter (·.uncounted)).map (·.msg)

theorem uncounted_cons (q : Pending) (qs : List Pending) :
    uncounted (q :: qs) = if q.uncounted then q.msg :: uncounted qs else uncounted qs := by
  simp only [uncounted, List.filter_cons]; split <;> rfl

theorem uncounted_perm {qs qs' : List Pending} (h : qs.Perm qs') :
    (uncounted qs).Perm (uncounted qs') := (h.filter _).map _

/-- The reports of `s` that are successes of the record `p`. -/
def successes (p : Nat) (s : List Served) : Nat :=
  s.countP fun r => r.msg.tt = p ∧ r.err = noError

/-- The reports of `s` that are failures of the record `p`. -/
def failures (p : Nat) (s : List Served) : Nat :=
  s.countP fun r => r.msg.tt = p ∧ r.err ≠ noError

theorem getElem_perm {α : Type} {l : List α} {i : Nat} {a : α} (h : l[i]? = some a) :
    l.Perm (a :: l.eraseIdx i) ∧ ∀ b, (l.set i b).Perm (b :: l.eraseIdx i) := by
  obtain ⟨hi, rfl⟩ := List.getElem?_eq_some_iff.mp h
  exact ⟨(List.getElem_cons_eraseIdx_perm hi).symm, fun b => List.set_perm_cons_eraseIdx hi b⟩

/-- **What a step of the environment is**: a callback starts, counts, or returns, or a poll
thread that has not exited moves. -/
theorem Ev.act_cases {e : Ev} {T : Tab} {d d' : Flow} (h : e.act T d = some d') :
    (∃ m u err rest, d.inflight.Perm (⟨m, .queued⟩ :: rest) ∧
      d'.inflight.Perm (⟨m, .running u err⟩ :: rest) ∧
      d' = { d with inflight := d'.inflight }) ∨
    (∃ m u err now rest, d.inflight.Perm (⟨m, .running u err⟩ :: rest) ∧
      d'.inflight.Perm (⟨m, .counted u⟩ :: rest) ∧
      d' = { d.count m err now with inflight := d'.inflight }) ∨
    (∃ m u, d.inflight.Perm (⟨m, .counted u⟩ :: d'.inflight) ∧
      d' = { d with inflight := d'.inflight }) ∨
    (∃ thr ph, d.phase thr ≠ .exited ∧
      d' = { d with phase := Function.update d.phase thr ph }) := by
  cases e with
  | cbEnter i u err =>
      simp only [Ev.act] at h
      split at h
      · rename_i m hq
        cases h
        exact Or.inl ⟨m, u, err, _, (getElem_perm hq).1, (getElem_perm hq).2 _, rfl⟩
      · cases h
  | cbCount i now =>
      simp only [Ev.act] at h
      split at h
      · rename_i m u err hq
        cases h
        exact Or.inr (Or.inl ⟨m, u, err, now, _, (getElem_perm hq).1, (getElem_perm hq).2 _, rfl⟩)
      · cases h
  | cbReturn i =>
      simp only [Ev.act] at h
      split at h
      · rename_i m u hq
        cases h
        exact Or.inr (Or.inr (Or.inl ⟨m, u, (getElem_perm hq).1, rfl⟩))
      · cases h
  | pollCheck thr =>
      simp only [Ev.act] at h
      split at h
      · rename_i hph hv
        cases h
        exact Or.inr (Or.inr (Or.inr ⟨thr, _, by rw [hph]; decide, rfl⟩))
      · cases h
  | pollReturn thr =>
      simp only [Ev.act] at h
      split at h
      · rename_i hph
        cases h
        exact Or.inr (Or.inr (Or.inr ⟨thr, _, by rw [hph]; decide, rfl⟩))
      · cases h

/-- A message moved to another stage is the same message. -/
theorem named_of_perm {P : Nat → Prop} {qs qs' rest : List Pending} {m : Message} {g g' : Stage}
    (hq : qs.Perm (⟨m, g⟩ :: rest)) (hq' : qs'.Perm (⟨m, g'⟩ :: rest))
    (h : ∀ q ∈ qs, P q.msg.tt) : ∀ q ∈ qs', P q.msg.tt := by
  intro q hm
  rcases List.mem_cons.mp (hq'.mem_iff.mp hm) with rfl | hm
  · exact h ⟨m, g⟩ (hq.mem_iff.mpr List.mem_cons_self)
  · exact h q (hq.mem_iff.mpr (List.mem_cons_of_mem _ hm))

/-! ### The counters -/

theorem logDeliveryFailure_counters (tt : Report) (err : RespErr) (now : Int) :
    (logDeliveryFailure tt err now).1.transferred = tt.transferred ∧
      (logDeliveryFailure tt err now).1.failed = tt.failed := by
  unfold logDeliveryFailure; split <;> exact ⟨rfl, rfl⟩

/-- `dr_msg_cb` counts each report once, as a success or as a failure. -/
theorem drMsgCb_counters (tt : Report) (err : RespErr) (now : Int) :
    (drMsgCb tt err now).1.transferred
      = tt.transferred + (if err = noError then 1 else 0) ∧
    (drMsgCb tt err now).1.failed = tt.failed + (if err = noError then 0 else 1) := by
  unfold drMsgCb
  by_cases he : err = noError
  · rw [if_neg (not_not.mpr he), if_pos he, if_pos he]
    split <;> exact ⟨rfl, by simp [logDeliveryRecovered]⟩
  · rw [if_pos he, if_neg he, if_neg he]
    obtain ⟨ht, hf⟩ := logDeliveryFailure_counters { tt with failed := tt.failed + 1 } err now
    exact ⟨by rw [ht]; simp, hf⟩

theorem disposeSuppressed_counters (tt : Report) :
    (disposeSuppressed tt).1.transferred = tt.transferred ∧
      (disposeSuppressed tt).1.failed = tt.failed := by
  unfold disposeSuppressed; split <;> exact ⟨rfl, rfl⟩

/-- The counters of the record `p` are its reports in `s`. -/
def Counted (tt : Report) (p : Nat) (s : List Served) : Prop :=
  tt.transferred = UInt32.ofNat (successes p s) ∧ tt.failed = UInt32.ofNat (failures p s)

/-- A new record counts nothing, as no report is about it. -/
theorem counted_zero {p : Nat} {s : List Served} (h : ∀ r ∈ s, r.msg.tt ≠ p) :
    Counted .zero p s := by
  have hs : successes p s = 0 := List.countP_eq_zero.mpr fun r hr => by simp [h r hr]
  have hf : failures p s = 0 := List.countP_eq_zero.mpr fun r hr => by simp [h r hr]
  rw [Counted, hs, hf]; exact ⟨rfl, rfl⟩

theorem counted_dispose {tt : Report} {p : Nat} {s : List Served} (h : Counted tt p s) :
    Counted (disposeSuppressed tt).1 p s := by
  obtain ⟨ht, hf⟩ := disposeSuppressed_counters tt
  rw [Counted, ht, hf]; exact h

theorem successes_append (p : Nat) (s s' : List Served) :
    successes p (s ++ s') = successes p s + successes p s' := List.countP_append

theorem failures_append (p : Nat) (s s' : List Served) :
    failures p (s ++ s') = failures p s + failures p s' := List.countP_append

theorem counted_count {d : Flow} {p : Nat} (m : Message) (err : RespErr) (now : Int)
    (h : Counted (d.report p) p d.served) :
    Counted ((d.count m err now).report p) p (d.count m err now).served := by
  obtain ⟨ht, hf⟩ := h
  unfold Counted
  simp only [Flow.count, successes_append, failures_append, UInt32.ofNat_add]
  by_cases hp : m.tt = p
  · subst hp
    obtain ⟨ht', hf'⟩ := drMsgCb_counters (d.report m.tt) err now
    rw [Function.update_self, ht', hf', ht, hf]
    by_cases he : err = noError <;> simp [successes, failures, he]
  · rw [Function.update_of_ne (Ne.symm hp), ht, hf]
    simp [successes, failures, hp]

/-! ### The invariant -/

/-- The configuration `kafka_table_connect` builds: the defaults, then the stored parameters. -/
def applied (brokers : CStr) (params : List KafkaParam) : Conf :=
  ⟨producerDefaults brokers ++ params.map fun p => (p.name.val, p.value.val), true⟩

/-- While there is a producer, the stored parameters are those of the configuration it was built
from, which is the last one handed to `rd_kafka_new`. -/
def Tab.Frozen (T : Tab) : Prop :=
  ∀ tk, T.kt.producer = some tk → ∃ brokers,
    T.handed.getLast? = some (applied brokers T.kt.params.items) ∧
    ∀ v rk r, T.producers.get tk = some v → v.rk = some rk → T.rks.get rk = some r →
      r.conf = applied brokers T.kt.params.items

/-- A poll thread's argument is a live producer with a live `rd_kafka_t`. -/
def Tab.Polls (T : Tab) : Prop :=
  ∀ thr tk, T.threads.get thr = some tk → ∃ v rk, T.producers.get tk = some v ∧
    v.rk = some rk ∧ T.rks.Live rk

/-- The environment counts reports and accepts nothing. -/
theorem Ev.act_messages {e : Ev} {T : Tab} {d d' : Flow} (h : e.act T d = some d') :
    d.served <+: d'.served ∧ d'.accepted = d.accepted := by
  rcases Ev.act_cases h with ⟨_, _, _, _, _, _, hd⟩ | ⟨_, _, _, _, _, _, _, hd⟩ | ⟨_, _, _, hd⟩ |
    ⟨_, _, _, hd⟩
  · rw [hd]; exact ⟨List.prefix_refl _, rfl⟩
  · rw [hd]; exact ⟨List.prefix_append _ _, rfl⟩
  · rw [hd]; exact ⟨List.prefix_refl _, rfl⟩
  · rw [hd]; exact ⟨List.prefix_refl _, rfl⟩

/-- **The invariant every call keeps.** -/
structure Inv (T : Tab) (d : Flow) : Prop where
  named : ∀ q ∈ d.inflight, T.topics.Live q.msg.tt
  known : ∀ m ∈ d.accepted, m.tt < T.topics.next
  conserved : d.accepted.Perm (d.served.map (·.msg) ++ uncounted d.inflight)
  counted : ∀ p, T.topics.Live p → Counted (d.report p) p d.served
  polls : T.Polls
  alive : ∀ thr, d.phase thr ≠ .exited → T.threads.Live thr
  one : ∀ p q, T.rks.Live p → T.rks.Live q → p = q
  frozen : T.Frozen

theorem inv_init : Inv Tab.init Flow.init where
  named _ h := by simp [Flow.init] at h
  known _ h := by simp [Flow.init] at h
  conserved := List.Perm.nil
  counted p h := by simp [Tab.init, Heap.Live] at h
  polls _ _ h := by simp [Tab.init] at h
  alive thr h := absurd rfl h
  one p _ h := by simp [Tab.init, Heap.Live] at h
  frozen _ h := by cases h

/-- The two differ in nothing the invariant reads. -/
structure Tab.Alike (T T' : Tab) : Prop where
  topics : T'.topics = T.topics
  producers : T'.producers = T.producers
  rks : T'.rks = T.rks
  threads : T'.threads = T.threads
  kt : T'.kt = T.kt
  handed : T'.handed = T.handed

/-- The two differ in nothing the invariant or a view reads. -/
structure Flow.Alike (d d' : Flow) : Prop where
  inflight : d'.inflight = d.inflight
  accepted : d'.accepted = d.accepted
  served : d'.served = d.served
  report : d'.report = d.report
  phase : d'.phase = d.phase
  scratch : d'.scratch = d.scratch

theorem Flow.Alike.refl (d : Flow) : d.Alike d := ⟨rfl, rfl, rfl, rfl, rfl, rfl⟩

theorem Inv.tab {T T' : Tab} {d : Flow} (h : Inv T d) (ht : T.Alike T') : Inv T' d := by
  have hpoll : T'.Polls := by
    unfold Tab.Polls; rw [ht.producers, ht.rks, ht.threads]; exact h.polls
  have hfr : T'.Frozen := by
    unfold Tab.Frozen; rw [ht.producers, ht.rks, ht.kt, ht.handed]; exact h.frozen
  exact ⟨ht.topics ▸ h.named, ht.topics ▸ h.known, h.conserved, ht.topics ▸ h.counted, hpoll,
    ht.threads ▸ h.alive, ht.rks ▸ h.one, hfr⟩

theorem Inv.flow {T : Tab} {d d' : Flow} (h : Inv T d) (hd : d.Alike d') : Inv T d' := by
  refine ⟨hd.inflight ▸ h.named, hd.accepted ▸ h.known, ?_, fun p hp => ?_, h.polls,
    hd.phase ▸ h.alive, h.one, h.frozen⟩
  · rw [hd.inflight, hd.accepted, hd.served]; exact h.conserved
  · rw [hd.report, hd.served]; exact h.counted p hp

/-- A step of the environment keeps the invariant. -/
theorem Inv.env {T : Tab} {d d' : Flow} {e : Ev} (h : Inv T d) (he : e.act T d = some d') :
    Inv T d' := by
  rcases Ev.act_cases he with ⟨m, u, err, rest, hq, hq', hd⟩ | ⟨m, u, err, now, rest, hq, hq', hd⟩ |
    ⟨m, u, hq, hd⟩ | ⟨thr, ph, hph, rfl⟩
  · -- the message is the same, and as uncounted as before
    have hs : d'.served = d.served := by rw [hd]
    have ha : d'.accepted = d.accepted := by rw [hd]
    have hr : d'.report = d.report := by rw [hd]
    refine ⟨named_of_perm hq hq' h.named, ha ▸ h.known, ?_, fun p hp => ?_, h.polls, ?_, h.one,
      h.frozen⟩
    · rw [ha, hs]
      refine h.conserved.trans (List.Perm.append_left _ ?_)
      have hu := (uncounted_perm hq').symm
      simp only [uncounted_cons, Pending.uncounted, if_true] at hu
      exact (uncounted_perm hq).trans hu
    · rw [hr, hs]; exact h.counted p hp
    · intro thr hthr; rw [hd] at hthr; exact h.alive thr hthr
  · -- the message moves from the uncounted ones to the counted ones
    have hs : d'.served = d.served ++ [⟨m, err, now⟩] := by rw [hd]; rfl
    have ha : d'.accepted = d.accepted := by rw [hd]; rfl
    have hr : d'.report = (d.count m err now).report := by rw [hd]
    refine ⟨named_of_perm hq hq' h.named, ha ▸ h.known, ?_, fun p hp => ?_, h.polls, ?_, h.one,
      h.frozen⟩
    · rw [ha, hs, List.map_append, List.append_assoc]
      refine h.conserved.trans (List.Perm.append_left _ ?_)
      exact (uncounted_perm hq).trans (List.Perm.cons _ (uncounted_perm hq').symm)
    · rw [hr, hs]; exact counted_count m err now (h.counted p hp)
    · intro thr hthr; rw [hd] at hthr; exact h.alive thr hthr
  · -- a counted message leaves
    have hs : d'.served = d.served := by rw [hd]
    have ha : d'.accepted = d.accepted := by rw [hd]
    have hr : d'.report = d.report := by rw [hd]
    refine ⟨fun q hm => ?_, ha ▸ h.known, ?_, fun p hp => ?_, h.polls, ?_, h.one, h.frozen⟩
    · exact h.named _ (hq.mem_iff.mpr (List.mem_cons_of_mem _ hm))
    · rw [ha, hs]
      refine h.conserved.trans (List.Perm.append_left _ ((uncounted_perm hq).trans ?_))
      rw [uncounted_cons]; exact List.Perm.refl _
    · rw [hr, hs]; exact h.counted p hp
    · intro thr hthr; rw [hd] at hthr; exact h.alive thr hthr
  · refine ⟨h.named, h.known, h.conserved, h.counted, h.polls, fun u hu => ?_, h.one, h.frozen⟩
    by_cases e : u = thr
    · subst e; exact h.alive u hph
    · exact h.alive u (by simpa [Function.update_of_ne e] using hu)

/-- Where no poll thread is left of the one instance, none is left. -/
theorem Inv.no_thread {T : Tab} {d : Flow} (h : Inv T d) {rk : Nat} (hrk : T.rks.Live rk)
    (hno : ∀ u q v, T.threads.get u = some q → T.producers.get q = some v → v.rk ≠ some rk)
    (thr : Nat) : ¬ T.threads.Live thr := by
  intro hl
  obtain ⟨q, hq⟩ := Option.isSome_iff_exists.mp hl
  obtain ⟨v, rk', hv, hvrk, hlive⟩ := h.polls thr q hq
  obtain rfl : rk' = rk := h.one rk' rk hlive hrk
  exact hno thr q v hq hv hvrk

/-! ### Views -/

/-- What a thread may know of the unguarded state. -/
structure View where
  /-- The records messages in flight may name. -/
  named : Nat → Prop
  acc : List Message
  /-- Reports counted so far, at least. -/
  lo : List Served
  scratch : List Nat

/-- The shared part of a view is true. -/
structure View.Sees (b : View) (d : Flow) : Prop where
  named : ∀ q ∈ d.inflight, b.named q.msg.tt
  acc : d.accepted = b.acc
  lo : b.lo <+: d.served

theorem View.Sees.flow {b : View} {d d' : Flow} (h : b.Sees d) (hd : d.Alike d') : b.Sees d' :=
  ⟨hd.inflight ▸ h.named, hd.accepted ▸ h.acc, hd.served ▸ h.lo⟩

theorem View.Sees.env {T : Tab} {b : View} {d d' : Flow} {e : Ev} (h : b.Sees d)
    (he : e.act T d = some d') : b.Sees d' := by
  rcases Ev.act_cases he with ⟨m, u, err, rest, hq, hq', hd⟩ | ⟨m, u, err, now, rest, hq, hq', hd⟩ |
    ⟨m, u, hq, hd⟩ | ⟨thr, ph, hph, rfl⟩
  · exact ⟨named_of_perm hq hq' h.named, by rw [hd]; exact h.acc, by rw [hd]; exact h.lo⟩
  · refine ⟨named_of_perm hq hq' h.named, by rw [hd]; exact h.acc, ?_⟩
    rw [hd]; exact h.lo.trans (List.prefix_append _ _)
  · refine ⟨fun q hm => ?_, by rw [hd]; exact h.acc, by rw [hd]; exact h.lo⟩
    exact h.named _ (hq.mem_iff.mpr (List.mem_cons_of_mem _ hm))
  · exact ⟨h.named, h.acc, h.lo⟩

theorem Ev.act_scratch {T : Tab} {d d' : Flow} {e : Ev} (he : e.act T d = some d') :
    d'.scratch = d.scratch := by
  rcases Ev.act_cases he with ⟨_, _, _, _, _, _, hd⟩ | ⟨_, _, _, _, _, _, _, hd⟩ |
    ⟨_, _, _, hd⟩ | ⟨_, _, _, rfl⟩
  · rw [hd]
  · rw [hd]; rfl
  · rw [hd]
  · rfl

/-- A call of `t` leaves the throwaway configurations of the others alone. -/
theorem Op.act_scratch {t u : Nat} {o : Op} {a : Ans} {T T' : Tab} {d d' : Flow} {r : o.Res}
    (hu : u ≠ t) (h : o.act t a T d = some (r, T', d')) : d'.scratch u = d.scratch u := by
  cases o <;> cases a <;> simp only [Op.act] at h <;> first
    | (cases h; done)
    | (cases h; first | rfl | exact Function.update_of_ne hu _ _)
    | (obtain ⟨_, _, e⟩ := Option.map_eq_some_iff.mp h; cases e; rfl)
    | (split at h <;> cases h; rfl)

/-- A reader's call leaves the guarded state alone. -/
theorem Op.act_rd {t : Nat} {o : Op} {a : Ans} {T T' : Tab} {d d' : Flow} {r : o.Res}
    (hv : o.Valid t .rd T d) (h : o.act t a T d = some (r, T', d')) : T' = T := by
  cases o <;> simp only [Op.Valid, reduceCtorEq, false_and] at hv <;> cases a <;>
    simp only [Op.act] at h <;> first
      | (cases h; done)
      | (cases h; rfl)
      | (obtain ⟨_, _, e⟩ := Option.map_eq_some_iff.mp h; cases e; rfl)
      | (split at h <;> cases h; rfl)

/-- A call outside the lock changes only what is the thread's own. -/
theorem Op.act_none {t : Nat} {o : Op} {a : Ans} {T T' : Tab} {d d' : Flow} {r : o.Res}
    (hv : o.Valid t .none T d) (h : o.act t a T d = some (r, T', d')) :
    T' = T ∧ d'.inflight = d.inflight ∧ d'.accepted = d.accepted ∧ d'.served = d.served := by
  cases o <;> simp only [Op.Valid, reduceCtorEq, ne_eq, not_true, false_and] at hv <;> cases a <;>
    simp only [Op.act] at h <;> cases h <;> exact ⟨rfl, rfl, rfl, rfl⟩

/-- **The logic** of the module's calls. -/
def logic : Logic iface View where
  Inv := Inv
  sees b d := b.Sees d
  own t b d := d.scratch t = b.scratch
  env_inv h he := h.env he
  env_sees _ he hb := hb.env he
  env_own he ho := by rw [Ev.act_scratch he]; exact ho
  act_own hu ha ho := (Op.act_scratch hu ha).trans ho
  rd_frame hv ha := Op.act_rd hv ha
  none_frame hv ha := by
    obtain ⟨hT, hi, hacc, hs⟩ := Op.act_none hv ha
    exact ⟨hT, fun b hb => ⟨hi ▸ hb.named, hacc ▸ hb.acc, hs ▸ hb.lo⟩⟩

end TrigEmit
