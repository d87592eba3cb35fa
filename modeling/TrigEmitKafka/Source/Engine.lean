import TrigEmitKafka.Source.Calls

/-!
# Source — `kafka-engine.c`

The producer and the topic records, as programs over the module's calls.  A pointer the caller
has tested is a number; one that may be NULL is an option.  A function that fills `errbuf`
returns its text with the failure.  How long `rd_kafka_poll` and `rd_kafka_flush` wait is left
out: either returns at any moment, having served any reports.

The delivery report callback itself is `drMsgCb` (`Source/Records.lean`), run by the environment
(`Ev.cbCount`); the poll thread is `Ev.pollCheck` and `Ev.pollReturn`.
-/

namespace TrigEmit

open Conc (Prog)

/-- `tek_kafka_status_t` -/
inductive TekKafkaStatus where
  | error
  | success
  deriving DecidableEq

/-- `safe_free` of a string. -/
def safeFreeStr : Option Str → K Unit
  | none   => pure ()
  | some s => call (.freeStr s.ptr)

/-- `safe_free` of an array. -/
def safeFreeArray : Option Nat → K Unit
  | none   => pure ()
  | some p => call (.freeArray p)

def rdKafkaPoll (rk : Nat) : K Unit := do
  call (.serveBegin rk)
  call .serveEnd

def rdKafkaFlush (rk : Nat) : K Unit := do
  call (.serveBegin rk)
  call .serveEnd

def kafkaConfSet (conf : Nat) (name value : CStr) : K (Except String Unit) :=
  call (.rdKafkaConfSet conf name value)

/-- `kafka_conf_set` of each property in turn, up to the first that fails. -/
def kafkaConfSetAll (conf : Nat) : List (CStr × CStr) → K Bool
  | []                => pure true
  | (name, value) :: rest => do
      match ← kafkaConfSet conf name value with
      | .ok _    => kafkaConfSetAll conf rest
      | .error _ => pure false

/-- The defaults `tek_kafka_producer_create` sets. -/
def producerDefaults (brokers : CStr) : List (CStr × CStr) :=
  [(.lit "bootstrap.servers", brokers),
   (.lit "compression.type", .lit "lz4"),
   (.lit "queue.buffering.max.messages", .lit "50000"),
   (.lit "enable.idempotence", .lit "true"),
   (.lit "batch.num.messages", .lit "20000"),
   (.lit "queue.buffering.max.ms", .lit "500")]

/-- `tek_kafka_producer_dispose`: the thread is joined if it was started. -/
def joinPollThread (tk : Nat) (v : TekKafka) : K Unit :=
  if v.threadStarted then do
    call (.pthreadJoin v.thread)
    call (.storeTk tk { v with running := false, threadStarted := false })
  else
    pure ()

/-- `tek_kafka_producer_dispose`: the instance is destroyed if there is one. -/
def destroyInstance (tk : Nat) (v : TekKafka) : K Unit :=
  match v.rk with
  | none    => pure ()
  | some rk => do
      call (.serveBegin rk)
      call (.rdKafkaDestroy rk)
      call (.storeTk tk { v with running := false, threadStarted := false, rk := none })

/-- `tek_kafka_producer_dispose`: the configuration is destroyed if it is still owned. -/
def destroyConf : Option Nat → K Unit
  | none      => pure ()
  | some conf => call (.rdKafkaConfDestroy conf)

/-- `tek_kafka_producer_dispose` -/
def tekKafkaProducerDispose : Option Nat → K Unit
  | none    => pure ()
  | some tk => do
      let v ← call (.loadTk tk)
      call (.storeTk tk { v with running := false })
      joinPollThread tk v
      destroyInstance tk v
      destroyConf v.conf
      safeFreeStr v.brokers
      call (.freeTk tk)

/-- `tek_kafka_producer_create` -/
def tekKafkaProducerCreate (brokers : CStr) : K (Option Nat) := do
  if zstr (some brokers) then
    pure none
  else
    match ← call .mallocTk with
    | none    => pure none
    | some tk =>
        let dup ← call (.strdup brokers)
        let conf ← call .rdKafkaConfNew
        call (.storeTk tk { TekKafka.zero with brokers := dup, conf := conf })
        match dup, conf with
        | some b, some c =>
            if ← kafkaConfSetAll c (producerDefaults b.val) then
              pure (some tk)
            else
              tekKafkaProducerDispose (some tk)
              pure none
        | _, _ =>
            tekKafkaProducerDispose (some tk)
            pure none

/-- `tek_kafka_producer_set_param` -/
def tekKafkaProducerSetParam (tk : Nat) (name value : CStr) : K (Except String Unit) := do
  if zstr (some name) then
    pure (.error "")
  else
    let v ← call (.loadTk tk)
    match v.conf with
    | none      => pure (.error "Already connected: disconnect before changing parameters")
    | some conf => kafkaConfSet conf name value

/-- `tek_kafka_producer_run` -/
def tekKafkaProducerRun (tk : Nat) : K (Except String Unit) := do
  let v ← call (.loadTk tk)
  match v.conf with
  | none      => pure (.error "")
  | some conf =>
      call (.rdKafkaConfSetDrMsgCb conf)
      match ← call (.rdKafkaNew conf) with
      | .error text =>
          -- ownership of the configuration passes only on success
          call (.rdKafkaConfDestroy conf)
          call (.storeTk tk { v with rk := none, conf := none })
          pure (.error text)
      | .ok rk =>
          call (.storeTk tk { v with rk := some rk, conf := none, running := true })
          match ← call (.pthreadCreate tk) with
          | none =>
              call (.storeTk tk { v with rk := some rk, conf := none, running := false })
              pure (.error "Cannot start the poll thread")
          | some thr =>
              call (.storeTk tk { v with
                rk := some rk, conf := none, running := true, thread := thr
                threadStarted := true })
              pure (.ok ())

/-- `tek_kafka_producer_flush`: how many messages were still queued when it gave up. -/
def tekKafkaProducerFlush : Option Nat → K Nat
  | none    => pure 0
  | some tk => do
      let v ← call (.loadTk tk)
      match v.rk with
      | none    => pure 0
      | some rk =>
          rdKafkaFlush rk
          call (.rdKafkaOutqLen rk)

/-- `tek_kafka_topic_create` -/
def tekKafkaTopicCreate (tk : Nat) (name : Option CStr) : K (Option Nat) := do
  let v ← call (.loadTk tk)
  match v.rk, name with
  | some rk, some n =>
      if zstr (some n) then
        pure none
      else
        match ← call .mallocTopic with
        | none    => pure none
        | some tt =>
            call (.storeTopic tt { TekTopic.zero with producer := some tk })
            match ← call (.strdup n) with
            | none   =>
                call (.freeTopic tt)
                pure none
            | some s =>
                call (.storeTopic tt { TekTopic.zero with producer := some tk, name := some s })
                match ← call (.rdKafkaTopicNew rk n) with
                | none   =>
                    call (.freeStr s.ptr)
                    call (.freeTopic tt)
                    pure none
                | some h =>
                    call (.storeTopic tt ⟨some s, some h, some tk⟩)
                    pure (some tt)
  | _, _ => pure none

/-- `tek_kafka_topic_dispose` -/
def tekKafkaTopicDispose (tt : Nat) : K Unit := do
  let v ← call (.loadTopic tt)
  match v.rkt with
  | none   => pure ()
  | some h =>
      call (.rdKafkaTopicDestroy h)
      call (.storeTopic tt { v with rkt := none })
  call (.flushSuppressed tt)

/-- `tek_kafka_topic_free` -/
def tekKafkaTopicFree (tt : Nat) : K Unit := do
  let v ← call (.loadTopic tt)
  safeFreeStr v.name
  call (.freeTopic tt)

/-- `tek_kafka_topic_get_stats` after the flush: the two counters are read. -/
def readCounters (tt : Nat) : K (UInt32 × UInt32) := do
  let transferred : UInt32 ← call (.loadTransferred tt)
  let failed : UInt32 ← call (.loadFailed tt)
  pure (transferred, failed)

/-- `tek_kafka_topic_get_stats` -/
def tekKafkaTopicGetStats (tt : Nat) : K (UInt32 × UInt32) := do
  let v ← call (.loadTopic tt)
  let _ ← tekKafkaProducerFlush v.producer
  readCounters tt

/-- The key `rd_kafka_produce` is given: `klen` bytes, or with the terminator when `klen` is 0. -/
def keyBytes (key : Option (List UInt8)) (klen : Nat) : Option (List UInt8) :=
  key.map fun k =>
    if klen = 0 then (CStr.ofBytes k).1 ++ [0] else k.take klen

/-- One round of the loop of `tek_kafka_topic_feed_key`: `none` is `continue`. -/
def feedRound (tt rkt rk : Nat) (key : Option (List UInt8)) (data : List UInt8) :
    K (Option TekKafkaStatus) := do
  match ← call (.rdKafkaProduce rkt data key tt) with
  | .error err =>
      if err = queueFull then
        rdKafkaPoll rk
        pure none
      else
        pure (some .error)
  | .ok _ =>
      rdKafkaPoll rk
      pure (some .success)

/-- `tek_kafka_topic_feed_key`; `rkt` and `rk` are `tt->rkt` and `tt->producer->rk`, which
`tek_kafka_topic_feed` has just tested. -/
def tekKafkaTopicFeedKey (tt rkt rk : Nat) (key : Option (List UInt8)) (klen : Nat)
    (data : List UInt8) : K TekKafkaStatus :=
  .loop (feedRound tt rkt rk (keyBytes key klen) data) pure

/-- `tek_kafka_topic_feed` -/
def tekKafkaTopicFeed (tt : Nat) (data : List UInt8) : K TekKafkaStatus := do
  let v ← call (.loadTopic tt)
  match v.rkt, v.producer with
  | some rkt, some tk =>
      let p ← call (.loadTk tk)
      match p.rk with
      | none    => pure .error
      | some rk => tekKafkaTopicFeedKey tt rkt rk none 0 data
  | _, _ => pure .error

end TrigEmit
