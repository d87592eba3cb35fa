import TrigEmitKafka.Source.Basic

/-!
# Source — the records of the module, and the throttle of the error log

The structures of `kafka-engine.h` and `kafka-table.h`, with pointers as numbers.  A `char *`
member keeps its string beside the pointer (`Str`): no string is written after it was duplicated.

`tek_topic_s` is in two parts.  `TekTopic` is what the table lock guards: the name, the handle
and the producer.  `Report` is what delivery reports write: the two atomic counters and the three
throttling fields.

`drMsgCb` and the two functions it logs with are pure here: from the record's part and the
report's error and time to the new part and the lines printed.  The topic's name in a line is
left to whoever holds the record.
-/

namespace TrigEmit

/-- A `char *` to a duplicated string: the pointer, and the string. -/
structure Str where
  ptr : Nat
  val : CStr
  deriving DecidableEq

/-- `rd_kafka_conf_t`: the successful `rd_kafka_conf_set` calls on it, oldest first, and whether
the delivery report callback was set. -/
structure Conf where
  sets : List (CStr × CStr)
  drMsgCb : Bool
  deriving DecidableEq

/-- `rd_kafka_t`: the configuration it was built from. -/
structure RdKafka where
  conf : Conf
  deriving DecidableEq

/-- `rd_kafka_topic_t`: the instance it was created on, and the topic's name. -/
structure RdKafkaTopic where
  rk : Nat
  name : CStr
  deriving DecidableEq

/-- `tek_kafka_s` -/
structure TekKafka where
  brokers : Option Str
  conf : Option Nat
  rk : Option Nat
  thread : Nat
  threadStarted : Bool
  running : Bool
  deriving DecidableEq

/-- `memset(tk, 0, sizeof(tek_kafka_t))` -/
def TekKafka.zero : TekKafka := ⟨none, none, none, 0, false, false⟩

/-- `tek_topic_s`, the part the table lock guards. -/
structure TekTopic where
  name : Option Str
  rkt : Option Nat
  producer : Option Nat
  deriving DecidableEq

/-- `memset(tt, 0, sizeof(tek_topic_t))`, the part the table lock guards. -/
def TekTopic.zero : TekTopic := ⟨none, none, none⟩

/-- `tek_topic_s`, the part delivery reports write. -/
structure Report where
  transferred : UInt32
  failed : UInt32
  lastErr : RespErr
  lastLogTime : Int
  suppressed : UInt32
  deriving DecidableEq

/-- `memset(tt, 0, sizeof(tek_topic_t))`, the part delivery reports write. -/
def Report.zero : Report := ⟨0, 0, noError, 0, 0⟩

/-- `kafka_param_s` -/
structure KafkaParam where
  name : Str
  value : Str
  deriving DecidableEq

/-- One of the three arrays of `kafka_tables_s`: its pointer, the elements below its count, and
its capacity. -/
structure CArray (α : Type) where
  ptr : Option Nat
  items : List α
  capacity : Nat
  deriving DecidableEq

/-- The array before its first use, and after it was freed. -/
def CArray.null {α : Type} : CArray α := ⟨none, [], 0⟩

/-- `kafka_tables_s` -/
structure KafkaTables where
  producer : Option Nat
  params : CArray KafkaParam
  topics : CArray Nat
  retired : CArray Nat
  deriving DecidableEq

/-- The initial `kt`. -/
def KafkaTables.init : KafkaTables := ⟨none, .null, .null, .null⟩

/-! ### The throttle -/

/-- A line about the deliveries of one topic. -/
inductive Line where
  /-- `Delivery failed`, with how many more were held back and for how long. -/
  | failed (err : RespErr) (more : Option (UInt32 × Int))
  /-- `Delivery recovered`, with how many failures went unreported. -/
  | recovered (more : Option UInt32)
  /-- `n further delivery failure(s) went unreported`, at disposal. -/
  | unreported (n : UInt32) (err : RespErr)
  deriving DecidableEq

/-- `log_delivery_failure` -/
def logDeliveryFailure (tt : Report) (err : RespErr) (now : Int) : Report × List Line :=
  if err = tt.lastErr ∧ now - tt.lastLogTime < errorLogInterval then
    ({ tt with suppressed := tt.suppressed + 1 }, [])
  else
    ({ tt with lastErr := err, lastLogTime := now, suppressed := 0 },
      [if tt.suppressed > 0 then .failed err (some (tt.suppressed, now - tt.lastLogTime))
       else .failed err none])

/-- `log_delivery_recovered` -/
def logDeliveryRecovered (tt : Report) : Report × List Line :=
  ({ tt with lastErr := noError, lastLogTime := 0, suppressed := 0 },
    [if tt.suppressed > 0 then .recovered (some tt.suppressed) else .recovered none])

/-- `dr_msg_cb` on the record of a report: `err` is `rkmessage->err`, `now` is `time(NULL)`. -/
def drMsgCb (tt : Report) (err : RespErr) (now : Int) : Report × List Line :=
  if err ≠ noError then
    logDeliveryFailure { tt with failed := tt.failed + 1 } err now
  else
    let r := if tt.lastErr ≠ noError then logDeliveryRecovered tt else (tt, [])
    ({ r.1 with transferred := r.1.transferred + 1 }, r.2)

/-- What `tek_kafka_topic_dispose` does with the throttling fields. -/
def disposeSuppressed (tt : Report) : Report × List Line :=
  if tt.suppressed > 0 then
    ({ tt with suppressed := 0 }, [.unreported tt.suppressed tt.lastErr])
  else
    (tt, [])

end TrigEmit
