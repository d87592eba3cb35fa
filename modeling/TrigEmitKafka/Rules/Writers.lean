import TrigEmitKafka.Rules.Confinement
import TrigEmitKafka.Support.Atomicity

/-!
# Rules — writers send nothing

The critical sections of writers have no loop, and none of their calls is `rd_kafka_produce`: while
a thread writes, no message is accepted.
-/

namespace TrigEmit

open Conc (LProg Prog)

/-- The call is not `rd_kafka_produce`. -/
def Op.Unsent : Op → Prop
  | .rdKafkaProduce _ _ _ _ => False
  | _                       => True

theorem Op.Quick.unsent {o : Op} (ho : o.Quick) : o.Unsent := by
  cases o <;> first | exact ho.elim | trivial

theorem Op.Sets.unsent {o : Op} (ho : o.Sets) : o.Unsent := by
  cases o <;> first | exact ho.elim | trivial

theorem straight_unsent {α : Type} {p : K α} (h : p.Straight Op.Tame) : p.Straight Op.Unsent :=
  h.mono fun _ ho => ho.calm.quick.unsent

theorem sets_unsent {α : Type} {p : K α} (h : MadeOf Op.Sets p) : p.Straight Op.Unsent :=
  h.straight.mono fun _ ho => ho.unsent

theorem dispose_unsent (tk : Option Nat) : (tekKafkaProducerDispose tk).Straight Op.Unsent := by
  cases tk with
  | none => exact .pure
  | some tk =>
      refine .op trivial fun v => .op trivial fun _ => ?_
      have hjoin : (joinPollThread tk v).Straight Op.Unsent := by
        unfold joinPollThread
        split
        · exact .op trivial fun _ => .call trivial
        · exact .pure
      have hdestroy : (destroyInstance tk v).Straight Op.Unsent := by
        unfold destroyInstance
        split
        · exact .pure
        · exact .op trivial fun _ => .op trivial fun _ => .call trivial
      have hconf : (destroyConf v.conf).Straight Op.Unsent := by
        cases v.conf with
        | none => exact .pure
        | some conf => exact .call trivial
      refine hjoin.bind fun _ => hdestroy.bind fun _ => hconf.bind fun _ => ?_
      exact (straight_unsent (safeFreeStr_straight _)).bind fun _ => .call trivial

theorem producerCreate_unsent (brokers : CStr) :
    (tekKafkaProducerCreate brokers).Straight Op.Unsent := by
  unfold tekKafkaProducerCreate
  split
  · exact .pure
  · refine .op trivial fun tk => ?_
    split
    · exact .pure
    · refine .op trivial fun dup => .op trivial fun conf => .op trivial fun _ => ?_
      split
      · refine (sets_unsent (confSetAll_sets _ _)).bind fun set => ?_
        split
        · exact .pure
        · exact (dispose_unsent _).bind fun _ => .pure
      · exact (dispose_unsent _).bind fun _ => .pure

theorem run_unsent (tk : Nat) : (tekKafkaProducerRun tk).Straight Op.Unsent := by
  refine .op trivial fun v => ?_
  split
  · exact .pure
  · refine .op trivial fun _ => .op trivial fun r => ?_
    split
    · exact .op trivial fun _ => .op trivial fun _ => .pure
    · refine .op trivial fun _ => .op trivial fun thr => ?_
      split
      · exact .op trivial fun _ => .pure
      · exact .op trivial fun _ => .pure

theorem connectLocked_unsent (brokers : CStr) :
    (kafkaTableConnectLocked brokers).Straight Op.Unsent := by
  refine .op trivial fun kt => ?_
  split
  · exact .pure
  · refine (producerCreate_unsent brokers).bind fun tk => ?_
    split
    · exact .pure
    · refine (sets_unsent (applyParams_sets _ _)).bind fun r => ?_
      split
      · exact (dispose_unsent _).bind fun _ => .pure
      · refine (run_unsent _).bind fun r => ?_
        split
        · exact (dispose_unsent _).bind fun _ => .pure
        · exact .op trivial fun _ => .pure

theorem dismissAllLocked_unsent : kafkaTableDismissAllLocked.Straight Op.Unsent := by
  refine .op trivial fun kt => ?_
  have hflush : (tekKafkaProducerFlush kt.producer).Straight Op.Unsent :=
    straight_unsent (flush_straight _)
  have hdispose : LProg.Straight Op.Unsent (Prog.forEach tekKafkaTopicDispose kt.topics.items) :=
    Prog.Straight.forEach (fun tt => (topicDispose_straight tt).mono fun _ ho => ho.quick.unsent) _
  have hfree : ∀ tts, LProg.Straight Op.Unsent (Prog.forEach tekKafkaTopicFree tts) := fun tts =>
    Prog.Straight.forEach (fun tt => straight_unsent (topicFree_straight tt)) tts
  have harray : ∀ p, (safeFreeArray p).Straight Op.Unsent := by
    intro p
    cases p with
    | none => exact .pure
    | some p => exact .call trivial
  refine hflush.bind fun _ => hdispose.bind fun _ => (dispose_unsent _).bind fun _ => ?_
  refine .op trivial fun _ => (hfree _).bind fun _ => (harray _).bind fun _ => ?_
  exact .op trivial fun _ => (hfree _).bind fun _ => (harray _).bind fun _ => .call trivial

/-! ### The critical sections -/

/-- What is so of a section with its lock is so of the section. -/
theorem straight_of_writing {α : Type} {body : K α} {P : Op → Prop}
    (h : (writing body).Straight P) : body.Straight P :=
  LProg.Straight.left (p := body) (h.2 ())

theorem createSection_unsent (topic : Option CStr) :
    (do
      let res ← createEntry topic
      kafkaTableReapRetiredLocked
      pure res : K Int).Straight Op.Unsent :=
  straight_of_writing (straight_unsent (create_tame topic))

theorem dismissSection_unsent {t : CStr} (hz : zstr (some t) ≠ true) :
    (do
      let res ← dismissEntry t
      kafkaTableReapRetiredLocked
      pure res : K Int).Straight Op.Unsent := by
  have h := (dismiss_calm (some t)).mono fun _ ho => ho.quick.unsent
  rw [kafkaTableDismiss, if_neg hz] at h
  exact straight_of_writing h

theorem unsetSection_unsent {n : CStr} (hz : zstr (some n) ≠ true) :
    (kafkaTableUnsetParamLocked n).Straight Op.Unsent := by
  have h := straight_unsent (unsetParam_tame (some n))
  rw [kafkaTableUnsetParam, if_neg hz] at h
  exact straight_of_writing h

end TrigEmit
