import TrigEmitKafka.Rules.Polling
import TrigEmitKafka.Support.Track

/-!
# Rules — serving delivery reports

librdkafka runs a callback only on a thread that is inside a call which serves reports:
`rd_kafka_poll`, `rd_kafka_flush` or `rd_kafka_destroy`.  A session that destroys an instance is
inside one (`brackets`), so librdkafka can serve there what it still holds.

* `tableProg_brackets`: every call to the table keeps to it.
-/

namespace TrigEmit

open Conc (LProg Prog Track)

/-- The mode of a session is whether it is inside a call that serves reports; it is to be where it
destroys an instance. -/
def brackets : Track Op Op.Res Bool where
  needs
    | .rdKafkaDestroy _, m => m = true
    | _,                 _ => True
  moves
    | .serveBegin _,     _, _ => true
    | .serveEnd,         _, _ => false
    | .rdKafkaDestroy _, _, _ => false
    | _,                 _, m => m

/-- The session serves reports, if its mode says so. -/
def Flow.Inside (t : Nat) (m : Bool) (d : Flow) : Prop := m = true → t ∈ d.serving

theorem Ev.act_serving {e : Ev} {T : Tab} {d d' : Flow} (h : e.act T d = some d') :
    d'.serving = d.serving := by
  rcases Ev.act_cases h with ⟨_, _, _, _, _, _, hd⟩ | ⟨_, _, _, _, _, _, _, hd⟩ | ⟨_, _, _, hd⟩ |
    ⟨_, _, _, hd⟩ <;> exact (congrArg Flow.serving hd).trans rfl

/-- A call leaves the other sessions inside the calls that serve reports, and its own unless it
ends it. -/
theorem Op.act_serving {t u : Nat} {o : Op} {a : Ans} {T T' : Tab} {d d' : Flow} {r : o.Res}
    (h : o.act t a T d = some (r, T', d')) (hu : u ≠ t ∨ (∀ rk, o ≠ .rdKafkaDestroy rk) ∧ o ≠ .serveEnd)
    (hd : u ∈ d.serving) : u ∈ d'.serving := by
  cases o with
  | serveBegin rk =>
      cases h
      exact List.mem_cons_of_mem t hd
  | serveEnd =>
      cases h
      exact (List.mem_erase_of_ne (hu.resolve_right fun h => h.2 rfl)).mpr hd
  | rdKafkaDestroy rk =>
      simp only [Op.act] at h
      split at h <;> cases h
      exact (List.mem_erase_of_ne (hu.resolve_right fun h => h.1 rk rfl)).mpr hd
  | _ =>
      cases a <;> simp only [Op.act] at h <;> first
        | (cases h; done)
        | (cases h; exact hd)
        | (obtain ⟨_, _, e⟩ := Option.map_eq_some_iff.mp h; cases e; exact hd)
        | (split at h <;> cases h; exact hd)

theorem brackets_truthful : brackets.Truthful iface Flow.Inside where
  act {t o a T d r T' d' m} ho hn ha hm := by
    have ha' : o.act t a T d = some (r, T', d') := ha
    cases o with
    | serveBegin rk =>
        cases ha'
        exact List.mem_cons_self
    | serveEnd => cases hm
    | rdKafkaDestroy rk => cases hm
    | _ => exact Op.act_serving ha' (Or.inr (by simp)) (ho hm)
  other hu ho _ _ ha hm := Op.act_serving ha (Or.inl hu) (ho hm)
  env ho he hm := by
    rw [Ev.act_serving he]
    exact ho hm

/-- The call destroys no instance. -/
def Op.Sparing : Op → Prop
  | .rdKafkaDestroy _ => False
  | _                 => True

theorem Op.Sets.sparing {o : Op} (ho : o.Sets) : o.Sparing := by
  cases o <;> first | exact ho.elim | trivial

theorem Op.Quick.sparing {o : Op} (ho : o.Quick) : o.Sparing := by
  cases o <;> first | exact ho.elim | trivial

theorem brackets_sparing (o : Op) (m : Bool) (ho : o.Sparing) : brackets.needs o m := by
  cases o <;> first | exact ho.elim | trivial

/-- The program serves the reports of an instance it destroys. -/
def Brackets {α : Type} (p : K α) : Prop := ∀ m, brackets.Follows p m fun _ _ => True

namespace Brackets

variable {α γ : Type}

theorem pure {a : α} : Brackets (Pure.pure a : K α) := fun _ => trivial

theorem op {o : Op} {k : o.Res → K α} (ho : o.Sparing) (hk : ∀ r, Brackets (k r)) :
    Brackets (TrigEmit.call o >>= k) := fun m => .op (brackets_sparing o m ho) fun r => hk r _

theorem bind {p : K α} {f : α → K γ} (hp : Brackets p) (hf : ∀ a, Brackets (f a)) :
    Brackets (p >>= f) := fun m => (hp m).bind fun a m' _ => hf a m'

theorem of_straight {p : K α} (h : p.Straight Op.Sparing) : Brackets p := fun m =>
  .of_straight brackets_sparing h m

theorem of_quick {p : K α} (h : p.Straight Op.Quick) : Brackets p :=
  of_straight (h.mono fun _ => Op.Quick.sparing)

theorem of_sets {p : K α} (h : MadeOf Op.Sets p) : Brackets p :=
  of_straight (h.straight.mono fun _ => Op.Sets.sparing)

theorem reading {body : K α} (h : Brackets body) : Brackets (TrigEmit.reading body) := by
  have hunlock : ∀ r : α, Brackets (do LProg.unlock; Pure.pure r : K α) := fun _ _ =>
    Prog.wp_bind trivial
  exact fun m => Prog.wp_bind (h.bind hunlock m)

theorem writing {body : K α} (h : Brackets body) : Brackets (TrigEmit.writing body) := by
  have hunlock : ∀ r : α, Brackets (do LProg.unlock; Pure.pure r : K α) := fun _ _ =>
    Prog.wp_bind trivial
  exact fun m => Prog.wp_bind (h.bind hunlock m)

theorem loop {body : K (Option γ)} {k : γ → K α} (hbody : Brackets body) (hk : ∀ x, Brackets (k x)) :
    Brackets (.loop body k) := fun _ => by
  refine Prog.wp_loop (fun _ => True) trivial fun m _ => (hbody m).mono fun x m' _ => ?_
  cases x with
  | none => trivial
  | some x => exact hk x m'

end Brackets

/-- The instance is destroyed in a call that serves its reports. -/
theorem dispose_brackets (tk : Option Nat) : Brackets (tekKafkaProducerDispose tk) := by
  cases tk with
  | none => exact .pure
  | some tk =>
      refine .op trivial fun v => .op trivial fun _ => ?_
      have hjoin : (joinPollThread tk v).Straight Op.Sparing := by
        unfold joinPollThread
        split
        · exact .op trivial fun _ => .call trivial
        · exact .pure
      have hdestroy : Brackets (destroyInstance tk v) := by
        intro m
        unfold destroyInstance
        split
        · trivial
        · exact ⟨trivial, fun _ => ⟨rfl, fun _ => ⟨trivial, fun _ => trivial⟩⟩⟩
      have hconf : (destroyConf v.conf).Straight Op.Sparing := by
        cases v.conf with
        | none => exact .pure
        | some conf => exact .call trivial
      have hstr : (safeFreeStr v.brokers).Straight Op.Sparing :=
        (safeFreeStr_straight _).mono fun _ ho => ho.calm.quick.sparing
      refine (Brackets.of_straight hjoin).bind fun _ => hdestroy.bind fun _ => ?_
      exact .of_straight (hconf.bind fun _ => hstr.bind fun _ => .call trivial)

theorem producerCreate_brackets (brokers : CStr) : Brackets (tekKafkaProducerCreate brokers) := by
  unfold tekKafkaProducerCreate
  split
  · exact .pure
  · refine .op trivial fun tk => ?_
    split
    · exact .pure
    · refine .op trivial fun dup => .op trivial fun conf => .op trivial fun _ => ?_
      split
      · refine (Brackets.of_sets (confSetAll_sets _ _)).bind fun set => ?_
        split
        · exact .pure
        · exact (dispose_brackets _).bind fun _ => .pure
      · exact (dispose_brackets _).bind fun _ => .pure

theorem run_sparing (tk : Nat) : (tekKafkaProducerRun tk).Straight Op.Sparing := by
  refine .op trivial fun v => ?_
  split
  · exact .pure
  · refine .op trivial fun _ => .op trivial fun r => ?_
    split
    · exact .op trivial fun _ => .op trivial fun _ => .pure
    · refine .op trivial fun _ => .op trivial fun thr => ?_
      split
      · exact .op trivial fun _ => .pure
      · exact .op trivial fun _ => .pure

theorem connectLocked_brackets (brokers : CStr) : Brackets (kafkaTableConnectLocked brokers) := by
  refine .op trivial fun kt => ?_
  split
  · exact .pure
  · refine (producerCreate_brackets brokers).bind fun tk => ?_
    split
    · exact .pure
    · refine (Brackets.of_sets (applyParams_sets _ _)).bind fun r => ?_
      split
      · exact (dispose_brackets _).bind fun _ => .pure
      · refine (Brackets.of_straight (run_sparing _)).bind fun r => ?_
        split
        · exact (dispose_brackets _).bind fun _ => .pure
        · exact .op trivial fun _ => .pure

theorem dismissAllLocked_brackets : Brackets kafkaTableDismissAllLocked := by
  refine .op trivial fun kt => ?_
  have hflush : Brackets (tekKafkaProducerFlush kt.producer) :=
    .of_quick ((flush_straight _).mono fun _ ho => ho.calm.quick)
  have hdispose : Brackets (Prog.forEach tekKafkaTopicDispose kt.topics.items) :=
    .of_quick (LProg.Straight.mono (P := Op.Calm) (fun _ ho => ho.quick)
      (Prog.Straight.forEach topicDispose_straight _))
  have hfree : ∀ tts, Brackets (Prog.forEach tekKafkaTopicFree tts) := fun tts =>
    .of_quick (LProg.Straight.mono (P := Op.Tame) (fun _ ho => ho.calm.quick)
      (Prog.Straight.forEach topicFree_straight tts))
  have harray : ∀ p, Brackets (safeFreeArray p) := by
    intro p
    cases p with
    | none => exact .pure
    | some p => exact .of_straight (.call trivial)
  refine hflush.bind fun _ => hdispose.bind fun _ => (dispose_brackets _).bind fun _ => ?_
  refine .op trivial fun _ => (hfree _).bind fun _ => (harray _).bind fun _ => ?_
  refine .op trivial fun _ => (hfree _).bind fun _ => (harray _).bind fun _ => ?_
  exact .of_straight (.call trivial)

theorem feed_brackets (tt : Nat) (data : List UInt8) : Brackets (tekKafkaTopicFeed tt data) := by
  refine .op trivial fun v => ?_
  split
  · refine .op trivial fun p => ?_
    split
    · exact .pure
    · have hpoll : ∀ rk, Brackets (rdKafkaPoll rk) := fun rk =>
        .of_straight (.op trivial fun _ => .call trivial)
      refine Brackets.loop (.op trivial fun r => ?_) fun _ => .pure
      split
      · split
        · exact (hpoll _).bind fun _ => .pure
        · exact .pure
      · exact (hpoll _).bind fun _ => .pure
  · exact .pure

/-- **Every call** destroys an instance in a call that serves its reports. -/
theorem tableProg_brackets (c : TableCall) : Brackets (tableProg c) := by
  have htame : ∀ {α : Type} {p : K α}, p.Straight Op.Tame → Brackets p := fun hp =>
    .of_quick (hp.mono fun _ ho => ho.calm.quick)
  cases c with
  | connected => exact htame connected_tame
  | validateParam name value => exact htame (validateParam_tame name value)
  | setParam name value => exact htame (setParam_tame name value)
  | getBrokers buflen => exact htame (getBrokers_tame buflen)
  | describeParams buflen => exact htame (kafkaTableDescribeParams_tame buflen)
  | «exists» topic => exact htame (exists_tame topic)
  | create topicName => exact htame (create_tame topicName)
  | unsetParam name => exact htame (unsetParam_tame name)
  | getStats topic => exact htame (getStats_tame topic)
  | dismiss topic => exact .of_quick (dismiss_straight topic)
  | dismissAll => exact .writing dismissAllLocked_brackets
  | connect brokers =>
      cases brokers with
      | none => exact .pure
      | some b =>
          simp only [tableProg, kafkaTableConnect]
          split
          · exact .pure
          · exact .writing (connectLocked_brackets b)
  | send topic data =>
      refine (Brackets.reading ?_).bind fun _ => .pure
      refine (htame (tame_of_peeks (peeks_find topic))).bind fun found => ?_
      split
      · exact .pure
      · exact (feed_brackets _ _).bind fun _ => .pure

end TrigEmit
