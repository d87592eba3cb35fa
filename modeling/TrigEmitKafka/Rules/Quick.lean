import TrigEmitKafka.Rules.Feeding
import TrigEmitKafka.Rules.Turns

/-!
# Rules — the functions that do not wait

A function is quick if it does not repeat, and no call it comes to waits for another thread or asks
librdkafka to take a message.  All but three are: `kafka_table_send` may repeat,
`kafka_table_dismiss_all` and a connect that fails may join a thread.  A quick function returns,
whatever state the table is in (`TableState.returns`).

They leave the producer's record as it is and start no thread (`Op.Calm`), and all but
`kafka_table_dismiss` dispose of no topic (`Op.Tame`).
-/

namespace TrigEmit

open Conc (LProg Prog)

/-- The operation is quick, leaves the producer's record as it is and starts no thread. -/
def Op.Calm : Op → Prop
  | .storeTk _ _ | .pthreadCreate _ => False
  | o                               => o.Quick

/-- It also touches no record's throttle. -/
def Op.Tame : Op → Prop
  | .storeTk _ _ | .pthreadCreate _ | .flushSuppressed _ => False
  | o                                                    => o.Quick

/-- It also asks for no array. -/
def Op.Arrayless : Op → Prop
  | .storeTk _ _ | .pthreadCreate _ | .flushSuppressed _ | .realloc _ _ => False
  | o                                                                   => o.Quick

theorem Op.Arrayless.tame {o : Op} (ho : o.Arrayless) : o.Tame := by
  cases o <;> first | exact ho | exact ho.elim

theorem Op.Calm.quick {o : Op} (ho : o.Calm) : o.Quick := by
  cases o <;> first | exact ho | exact ho.elim

theorem Op.Tame.calm {o : Op} (ho : o.Tame) : o.Calm := by
  cases o <;> first | exact ho | exact ho.elim

theorem Op.Tame.mild {o : Op} (ho : o.Tame) : o.Mild := by
  cases o <;> first | exact ho | exact ho.elim

theorem straight_calm {α : Type} {p : K α} (h : p.Straight Op.Tame) : p.Straight Op.Calm :=
  h.mono fun _ => Op.Tame.calm

theorem straight_mild {α : Type} {p : K α} (h : p.Straight Op.Tame) : p.Straight Op.Mild :=
  h.mono fun _ => Op.Tame.mild

theorem straight_tame {α : Type} {p : K α} (h : p.Straight Op.Arrayless) : p.Straight Op.Tame :=
  h.mono fun _ => Op.Arrayless.tame

/-! ### Readers -/

theorem getBrokers_tame (buflen : Nat) :
    (kafkaTableGetBrokers buflen).Straight Op.Tame := by
  unfold kafkaTableGetBrokers
  split
  · exact .pure
  · refine straight_reading (.op trivial fun kt => ?_)
    split
    · exact .pure
    · refine .op trivial fun v => ?_
      split
      · exact .pure
      · exact .op trivial fun _ => .pure

theorem getBrokers_straight (buflen : Nat) : (kafkaTableGetBrokers buflen).Straight Op.Mild :=
  straight_mild (getBrokers_tame buflen)

theorem describeParams_straight (buflen : Nat) (ps : List KafkaParam) (used : Nat)
    (buf : List UInt8) : (describeParams buflen ps used buf).Straight Op.Tame := by
  induction ps generalizing used buf with
  | nil => exact .pure
  | cons p ps ih =>
      rw [describeParams]
      split
      · refine .op trivial fun name => ?_
        have hshown : (shownValue name p).Straight Op.Tame := by
          unfold shownValue
          split
          · exact .pure
          · exact .call trivial
        refine hshown.bind fun shown => ?_
        dsimp only
        split
        · exact ih _ _
        · exact .pure
      · exact .pure

theorem kafkaTableDescribeParams_tame (buflen : Nat) :
    (kafkaTableDescribeParams buflen).Straight Op.Tame := by
  unfold kafkaTableDescribeParams
  split
  · exact .pure
  · exact straight_reading (.op trivial fun kt =>
      (describeParams_straight _ _ _ _).bind fun _ => .pure)

theorem kafkaTableDescribeParams_straight (buflen : Nat) :
    (kafkaTableDescribeParams buflen).Straight Op.Mild :=
  straight_mild (kafkaTableDescribeParams_tame buflen)

/-! ### Searches -/

theorem tame_of_peeks {α : Type} {p : K α} (h : Prog.Straight Peeks p) : p.Straight Op.Tame := by
  refine h.mono fun c hc => ?_
  cases c with
  | op o => cases o <;> trivial
  | _ => trivial

theorem exists_tame (topic : Option CStr) : (kafkaTableExists topic).Straight Op.Tame :=
  straight_reading ((tame_of_peeks (peeks_find topic)).bind fun _ => .pure)

theorem exists_straight (topic : Option CStr) : (kafkaTableExists topic).Straight Op.Mild :=
  straight_mild (exists_tame topic)

theorem topicIs_straight (topic : CStr) (tt : Nat) : (topicIs topic tt).Straight Op.Tame := by
  refine .op trivial fun v => ?_
  split
  · exact .op trivial fun _ => .pure
  · exact .op trivial fun _ => .pure

theorem paramIs_arrayless (name : CStr) (p : KafkaParam) : (paramIs name p).Straight Op.Arrayless :=
  .op trivial fun _ => .pure

theorem paramIs_straight (name : CStr) (p : KafkaParam) : (paramIs name p).Straight Op.Tame :=
  straight_tame (paramIs_arrayless name p)

theorem flush_straight (tk : Option Nat) : (tekKafkaProducerFlush tk).Straight Op.Tame := by
  cases tk with
  | none => exact .pure
  | some tk =>
      refine .op trivial fun v => ?_
      split
      · exact .pure
      · exact (LProg.Straight.op trivial fun _ => .call trivial).bind fun _ => .call trivial

theorem getStats_tame (topic : Option CStr) :
    (kafkaTopicGetStats topic).Straight Op.Tame := by
  refine straight_reading ((tame_of_peeks (peeks_find topic)).bind fun found => ?_)
  split
  · exact .pure
  · exact .op trivial fun v => (flush_straight _).bind fun _ =>
      .op trivial fun _ => .op trivial fun _ => .pure

theorem getStats_straight (topic : Option CStr) : (kafkaTopicGetStats topic).Straight Op.Mild :=
  straight_mild (getStats_tame topic)

/-! ### Writers -/

theorem safeFreeStr_arrayless (s : Option Str) : (safeFreeStr s).Straight Op.Arrayless := by
  cases s with
  | none => exact .pure
  | some s => exact .call trivial

theorem safeFreeStr_straight (s : Option Str) : (safeFreeStr s).Straight Op.Tame :=
  straight_tame (safeFreeStr_arrayless s)

theorem topicFree_arrayless (tt : Nat) : (tekKafkaTopicFree tt).Straight Op.Arrayless :=
  .op trivial fun v => (safeFreeStr_arrayless v.name).bind fun _ => .call trivial

theorem topicFree_straight (tt : Nat) : (tekKafkaTopicFree tt).Straight Op.Tame :=
  straight_tame (topicFree_arrayless tt)

theorem outqPending_arrayless (tk : Option Nat) : (outqPending tk).Straight Op.Arrayless := by
  cases tk with
  | none => exact .pure
  | some tk =>
      refine .op trivial fun v => ?_
      split
      · exact .pure
      · exact .op trivial fun _ => .pure

theorem grow_straight {α : Type} (a : CArray α) (itemsize : Nat) :
    (kafkaTableGrow a itemsize).Straight Op.Tame := by
  unfold kafkaTableGrow
  split
  · exact .pure
  · refine .op trivial fun grown => ?_
    split <;> exact .pure

theorem outqPending_straight (tk : Option Nat) : (outqPending tk).Straight Op.Tame :=
  straight_tame (outqPending_arrayless tk)

theorem reap_arrayless : kafkaTableReapRetiredLocked.Straight Op.Arrayless := by
  refine .op trivial fun kt => ?_
  split
  · exact .pure
  · refine (outqPending_arrayless _).bind fun pending => ?_
    split
    · exact .pure
    · exact LProg.Straight.bind (Prog.Straight.forEach topicFree_arrayless _) fun _ => .call trivial

theorem reap_tame : kafkaTableReapRetiredLocked.Straight Op.Tame := straight_tame reap_arrayless

theorem topicCreate_arrayless (tk : Nat) (name : Option CStr) :
    (tekKafkaTopicCreate tk name).Straight Op.Arrayless := by
  refine .op trivial fun v => ?_
  split
  · split
    · exact .pure
    · refine .op trivial fun tt => ?_
      split
      · exact .pure
      · refine .op trivial fun _ => .op trivial fun dup => ?_
        split
        · exact .op trivial fun _ => .pure
        · refine .op trivial fun _ => .op trivial fun h => ?_
          split
          · exact .op trivial fun _ => .op trivial fun _ => .pure
          · exact .op trivial fun _ => .pure
  · exact .pure

theorem create_tame (topic : Option CStr) :
    (kafkaTableCreate topic).Straight Op.Tame := by
  have hentry : (createEntry topic).Straight Op.Tame := by
    refine (tame_of_peeks (peeks_find topic)).bind fun found => ?_
    split
    · exact .pure
    · refine .op trivial fun kt => ?_
      split
      · exact .pure
      · refine (grow_straight _ _).bind fun grown => ?_
        split
        · exact .pure
        · refine .op trivial fun _ => (straight_tame (topicCreate_arrayless _ _)).bind fun tt => ?_
          split
          · exact .pure
          · exact .op trivial fun _ => .pure
  exact straight_writing (hentry.bind fun _ => reap_tame.bind fun _ => .pure)

theorem create_straight (topic : Option CStr) : (kafkaTableCreate topic).Straight Op.Mild :=
  straight_mild (create_tame topic)

theorem topicDispose_straight (tt : Nat) : (tekKafkaTopicDispose tt).Straight Op.Calm := by
  refine .op trivial fun v => ?_
  split
  · exact .call trivial
  · exact .op trivial fun _ => .op trivial fun _ => .call trivial

theorem remove_straight (idx : Nat) : (kafkaTableRemoveLocked idx).Straight Op.Calm := by
  refine .op trivial fun kt => ?_
  split
  · exact .call trivial
  · refine .op trivial fun _ => (topicDispose_straight _).bind fun _ =>
      (straight_calm (outqPending_straight _)).bind fun pending => ?_
    split
    · refine (straight_calm (grow_straight _ _)).bind fun grown => ?_
      split
      · exact .call trivial
      · exact .call trivial
    · exact straight_calm (topicFree_straight _)

theorem dismiss_calm (topic : Option CStr) :
    (kafkaTableDismiss topic).Straight Op.Calm := by
  cases topic with
  | none => exact .pure
  | some t =>
      have hscan : ∀ tt, (topicIs t tt).Straight Op.Calm := fun tt =>
        straight_calm (topicIs_straight t tt)
      have hentry : (dismissEntry t).Straight Op.Calm := by
        refine .op trivial fun kt =>
          LProg.Straight.bind (Prog.Straight.scan hscan _ _) fun found => ?_
        split
        · exact LProg.Straight.pure
        · exact (straight_calm (flush_straight _)).bind fun _ =>
            (remove_straight _).bind fun _ => .pure
      simp only [kafkaTableDismiss]
      split
      · exact LProg.Straight.pure
      · exact straight_writing (hentry.bind fun _ =>
          (straight_calm reap_tame).bind fun _ => .pure)

theorem dismiss_straight (topic : Option CStr) : (kafkaTableDismiss topic).Straight Op.Quick :=
  (dismiss_calm topic).mono fun _ => Op.Calm.quick

theorem freeParam_straight (p : KafkaParam) : (freeParam p).Straight Op.Tame :=
  .op trivial fun _ => .call trivial

theorem unsetParam_tame (name : Option CStr) :
    (kafkaTableUnsetParam name).Straight Op.Tame := by
  cases name with
  | none => exact .pure
  | some n =>
      simp only [kafkaTableUnsetParam]
      split
      · exact LProg.Straight.pure
      · refine straight_writing (.op trivial fun kt => ?_)
        split
        · exact .pure
        · refine (Prog.Straight.scan (fun p => paramIs_straight n p) _ _).bind fun found => ?_
          split
          · exact LProg.Straight.pure
          · exact (freeParam_straight _).bind fun _ => .op trivial fun _ => .pure

theorem unsetParam_straight (name : Option CStr) : (kafkaTableUnsetParam name).Straight Op.Mild :=
  straight_mild (unsetParam_tame name)

theorem setParamLocked_straight (name value : CStr) :
    (kafkaTableSetParamLocked name value).Straight Op.Tame := by
  refine .op trivial fun kt => ?_
  split
  · exact .pure
  · refine (Prog.Straight.scan (fun p => paramIs_straight name p) _ _).bind fun found => ?_
    split
    · refine LProg.Straight.op trivial fun dup => ?_
      split
      · exact .pure
      · exact .op trivial fun _ => .op trivial fun _ => .pure
    · refine LProg.Straight.bind (grow_straight _ _) fun grown => ?_
      split
      · exact .pure
      · refine .op trivial fun _ => .op trivial fun dupname => .op trivial fun dupvalue => ?_
        split
        · exact .op trivial fun _ => .pure
        · exact (safeFreeStr_straight _).bind fun _ => (safeFreeStr_straight _).bind fun _ => .pure

theorem validateParam_tame (name value : Option CStr) :
    (kafkaTableValidateParam name value).Straight Op.Tame := by
  unfold kafkaTableValidateParam
  split
  · split
    · exact .pure
    · refine .op trivial fun scratch => ?_
      split
      · exact .pure
      · refine .op trivial fun r => ?_
        split
        · exact .op trivial fun _ => .pure
        · exact .op trivial fun _ => .pure
  · exact .pure

theorem setParam_tame (name value : Option CStr) :
    (kafkaTableSetParam name value).Straight Op.Tame := by
  refine (validateParam_tame name value).bind fun r => ?_
  split
  · exact straight_writing (setParamLocked_straight _ _)
  · exact .pure
  · exact .pure

theorem connected_tame : kafkaTableConnected.Straight Op.Tame :=
  straight_reading (.op trivial fun _ => .pure)

end TrigEmit
