import TrigEmitKafka.Source.Engine
import TrigEmitKafka.Support.Slots

/-!
# Source — `kafka-table.c`

The registry behind `ktlock`.  Each `_locked` helper is a program that assumes the lock; each
exported function takes the lock once, for reading or for writing, around one of them
(`reading`, `writing`), so a critical section is a program of its own.

A string argument that may be NULL is an option.  A function that fills `errbuf` returns its
text with the failure, before it is cut to the buffer's length.  The informational and error
prints of the table are left out, apart from the leak of a record (`Op.leak`).
-/

namespace TrigEmit

open Conc (LProg Prog)
open Slots (swapRemove)

/-- A critical section of a reader. -/
def reading {α : Type} (body : K α) : K α := do
  LProg.rdlock
  let r ← body
  LProg.unlock
  pure r

/-- A critical section of a writer. -/
def writing {α : Type} (body : K α) : K α := do
  LProg.wrlock
  let r ← body
  LProg.unlock
  pure r

/-! ### Helpers -/

/-- `kafka_table_grow`: the array with room for one more element, or nothing when the allocation
failed. -/
def kafkaTableGrow {α : Type} (a : CArray α) (itemsize : Nat) : K (Option (CArray α)) :=
  if a.items.length < a.capacity then
    pure (some a)
  else do
    let newcap := if a.capacity = 0 then initialSlots else sizeT (a.capacity * 2)
    match ← call (.realloc a.ptr (sizeT (newcap * itemsize))) with
    | none       => pure none
    | some grown => pure (some { a with ptr := some grown, capacity := newcap })

/-- `strcmp(tt->name, topic) == 0` -/
def topicIs (topic : CStr) (tt : Nat) : K Bool := do
  let v ← call (.loadTopic tt)
  match v.name with
  | none   =>
      call .undefined
      pure false
  | some s =>
      let name : CStr ← call (.readStr s)
      pure (decide (name = topic))

/-- `strcmp(p->name, name) == 0` -/
def paramIs (name : CStr) (p : KafkaParam) : K Bool := do
  let s : CStr ← call (.readStr p.name)
  pure (decide (s = name))

/-- `kafka_table_find_locked` -/
def kafkaTableFindLocked : Option CStr → K (Option Nat)
  | none       => pure none
  | some topic => do
      let kt ← call .loadKt
      let r ← Prog.scan (topicIs topic) 0 kt.topics.items
      pure (r.map Prod.snd)

/-- `kt.producer != NULL && kt.producer->rk != NULL && rd_kafka_outq_len(kt.producer->rk) > 0` -/
def outqPending : Option Nat → K Bool
  | none    => pure false
  | some tk => do
      let v ← call (.loadTk tk)
      match v.rk with
      | none    => pure false
      | some rk => do
          let n : Nat ← call (.rdKafkaOutqLen rk)
          pure (decide (0 < n))

/-- `kafka_table_reap_retired_locked` -/
def kafkaTableReapRetiredLocked : K Unit := do
  let kt ← call .loadKt
  if kt.retired.items.isEmpty then
    pure ()
  else if ← outqPending kt.producer then
    pure ()
  else
    Prog.forEach tekKafkaTopicFree kt.retired.items
    call (.storeKt { kt with retired := { kt.retired with items := [] } })

/-- `kafka_table_remove_locked` -/
def kafkaTableRemoveLocked (idx : Nat) : K Unit := do
  let kt ← call .loadKt
  match kt.topics.items[idx]? with
  | none    => call .undefined
  | some tt =>
      let rest := { kt with topics := { kt.topics with items := swapRemove idx kt.topics.items } }
      call (.storeKt rest)
      tekKafkaTopicDispose tt
      if ← outqPending kt.producer then
        match ← kafkaTableGrow kt.retired topicSize with
        | some retired =>
            call (.storeKt { rest with
              retired := { retired with items := retired.items ++ [tt] } })
        | none => call (.leak tt)
      else
        tekKafkaTopicFree tt

/-- `safe_free` of both strings of a parameter. -/
def freeParam (p : KafkaParam) : K Unit := do
  call (.freeStr p.name.ptr)
  call (.freeStr p.value.ptr)

/-- `kafka_table_clear_params_locked` -/
def kafkaTableClearParamsLocked : K Unit := do
  let kt ← call .loadKt
  Prog.forEach freeParam kt.params.items
  safeFreeArray kt.params.ptr
  call (.storeKt { kt with params := .null })

/-! ### Connection -/

/-- `kafka_table_connected` -/
def kafkaTableConnected : K Bool :=
  reading do
    let kt ← call .loadKt
    pure kt.producer.isSome

/-- `kafka_table_validate_param` -/
def kafkaTableValidateParam (name value : Option CStr) : K (Except String Unit) :=
  match name, value with
  | some n, some v =>
      if zstr (some n) then
        pure (.error "Parameter name must not be empty")
      else do
        match ← call .scratchNew with
        | none         => pure (.error "Out of memory")
        | some scratch =>
            match ← call (.scratchSet scratch n v) with
            | .error errstr =>
                call (.scratchDestroy scratch)
                pure (.error errstr)
            | .ok _ =>
                call (.scratchDestroy scratch)
                pure (.ok ())
  | _, _ => pure (.error "Parameter name must not be empty")

/-- The critical section of `kafka_table_set_param`. -/
def kafkaTableSetParamLocked (name value : CStr) : K (Except String Unit) := do
  let kt ← call .loadKt
  if kt.producer.isSome then
    pure (.error "Already connected: disconnect before changing parameters")
  else
    match ← Prog.scan (paramIs name) 0 kt.params.items with
    | some (i, p) =>
        match ← call (.strdup value) with
        | none          => pure (.error "Out of memory")
        | some dupvalue =>
            call (.freeStr p.value.ptr)
            call (.storeKt { kt with
              params := { kt.params with items := kt.params.items.set i ⟨p.name, dupvalue⟩ } })
            pure (.ok ())
    | none =>
        match ← kafkaTableGrow kt.params paramSize with
        | none        => pure (.error "Out of memory")
        | some params =>
            call (.storeKt { kt with params := params })
            let dupname ← call (.strdup name)
            let dupvalue ← call (.strdup value)
            match dupname, dupvalue with
            | some n, some v =>
                call (.storeKt { kt with
                  params := { params with items := params.items ++ [⟨n, v⟩] } })
                pure (.ok ())
            | _, _ =>
                safeFreeStr dupname
                safeFreeStr dupvalue
                pure (.error "Out of memory")

/-- `kafka_table_set_param` -/
def kafkaTableSetParam (name value : Option CStr) : K (Except String Unit) := do
  match ← kafkaTableValidateParam name value, name, value with
  | .ok _, some n, some v => writing (kafkaTableSetParamLocked n v)
  | .error text, _, _     => pure (.error text)
  | .ok _, _, _           => pure (.error "Parameter name must not be empty")

/-- The loop of `kafka_table_connect` over the stored parameters. -/
def applyParams (tk : Nat) : List KafkaParam → K (Except String Unit)
  | []      => pure (.ok ())
  | p :: ps => do
      let name ← call (.readStr p.name)
      let value ← call (.readStr p.value)
      match ← tekKafkaProducerSetParam tk name value with
      | .error text => pure (.error text)
      | .ok _       => applyParams tk ps

/-- The critical section of `kafka_table_connect`. -/
def kafkaTableConnectLocked (brokers : CStr) : K (Except String Unit) := do
  let kt ← call .loadKt
  if kt.producer.isSome then
    pure (.error "Already connected: call kafka_disconnect() first")
  else
    match ← tekKafkaProducerCreate brokers with
    | none    => pure (.error "Cannot create the producer configuration")
    | some tk =>
        match ← applyParams tk kt.params.items with
        | .error text =>
            tekKafkaProducerDispose (some tk)
            pure (.error text)
        | .ok _ =>
            match ← tekKafkaProducerRun tk with
            | .error text =>
                tekKafkaProducerDispose (some tk)
                pure (.error text)
            | .ok _ =>
                call (.storeKt { kt with producer := some tk })
                pure (.ok ())

/-- `kafka_table_connect` -/
def kafkaTableConnect (brokers : Option CStr) : K (Except String Unit) :=
  match brokers with
  | none   => pure (.error "Broker list must not be empty")
  | some b =>
      if zstr (some b) then
        pure (.error "Broker list must not be empty")
      else
        writing (kafkaTableConnectLocked b)

/-- `kafka_table_get_brokers`: its result, and what it leaves in `buf` before the terminator. -/
def kafkaTableGetBrokers (buflen : Nat) : K (Int × List UInt8) :=
  if buflen = 0 then
    pure (0, [])
  else
    reading do
      let kt ← call .loadKt
      match kt.producer with
      | none    => pure (0, [])
      | some tk =>
          let v ← call (.loadTk tk)
          match v.brokers with
          | none   => pure (0, [])
          | some s =>
              let brokers ← call (.readStr s)
              pure (1, brokers.1.take (buflen - 1))

/-- `kafka_param_is_secret` -/
def kafkaParamIsSecret (name : CStr) : Bool :=
  decide ((CStr.lit "password").1 <:+: name.1) || decide ((CStr.lit "secret").1 <:+: name.1)

/-- One line of `kafka_table_describe_params`. -/
def paramLine (name shown : CStr) : List UInt8 :=
  (CStr.lit "  ").1 ++ name.1 ++ (CStr.lit " = ").1 ++ shown.1 ++ (CStr.lit "\n").1

/-- `kafka_param_is_secret(p->name) ? "********" : p->value` -/
def shownValue (name : CStr) (p : KafkaParam) : K CStr :=
  if kafkaParamIsSecret name then pure (.lit "********") else call (.readStr p.value)

/-- The loop of `kafka_table_describe_params`: `buf` is what it holds before the terminator. -/
def describeParams (buflen : Nat) : List KafkaParam → Nat → List UInt8 → K (List UInt8)
  | [],      _,    buf => pure buf
  | p :: ps, used, buf =>
      if used + 1 < buflen then do
        let name ← call (.readStr p.name)
        let shown ← shownValue name p
        let line := paramLine name shown
        let buf' := buf ++ line.take (buflen - used - 1)
        -- `snprintf` returns a negative value for a length no `int` holds
        if line.length < 2 ^ 31 then describeParams buflen ps (used + line.length) buf'
        else pure buf'
      else pure buf

/-- `kafka_table_describe_params`: its result, and what it leaves in `buf`. -/
def kafkaTableDescribeParams (buflen : Nat) : K (Int × List UInt8) :=
  if buflen = 0 then
    pure (0, [])
  else
    reading do
      let kt ← call .loadKt
      let buf ← describeParams buflen kt.params.items 0 []
      pure (cInt kt.params.items.length, buf)

/-! ### Topics -/

/-- `kafka_table_exists` -/
def kafkaTableExists (topic : Option CStr) : K Bool :=
  reading do
    let tt ← kafkaTableFindLocked topic
    pure tt.isSome

/-- `kafka_table_create` up to its label `done`. -/
def createEntry (topicName : Option CStr) : K Int := do
  match ← kafkaTableFindLocked topicName with
  | some _ => pure 0
  | none   =>
      let kt ← call .loadKt
      match kt.producer with
      | none    => pure (-1)
      | some tk =>
          match ← kafkaTableGrow kt.topics topicSize with
          | none        => pure (-1)
          | some topics =>
              call (.storeKt { kt with topics := topics })
              match ← tekKafkaTopicCreate tk topicName with
              | none    => pure (-1)
              | some tt =>
                  call (.storeKt { kt with
                    topics := { topics with items := topics.items ++ [tt] } })
                  pure 0

/-- `kafka_table_create` -/
def kafkaTableCreate (topicName : Option CStr) : K Int :=
  writing do
    let res ← createEntry topicName
    kafkaTableReapRetiredLocked
    pure res

/-- `kafka_table_send` -/
def kafkaTableSend (topic : Option CStr) (data : List UInt8) : K Int := do
  let sent ← reading do
    match ← kafkaTableFindLocked topic with
    | none    => pure false
    | some tt =>
        let status ← tekKafkaTopicFeed tt data
        pure (decide (status = .success))
  pure (if sent then cInt data.length else -1)

/-- `kafka_table_dismiss` up to the reaping: whether the topic was found. -/
def dismissEntry (topic : CStr) : K Int := do
  let kt ← call .loadKt
  match ← Prog.scan (topicIs topic) 0 kt.topics.items with
  | none        => pure (-1)
  | some (i, _) =>
      let _ ← tekKafkaProducerFlush kt.producer
      kafkaTableRemoveLocked i
      pure 0

/-- `kafka_table_dismiss` -/
def kafkaTableDismiss (topic : Option CStr) : K Int :=
  match topic with
  | none   => pure (-1)
  | some t =>
      if zstr (some t) then
        pure (-1)
      else
        writing do
          let res ← dismissEntry t
          kafkaTableReapRetiredLocked
          pure res

/-- The critical section of `kafka_table_dismiss_all`. -/
def kafkaTableDismissAllLocked : K Unit := do
  let kt ← call .loadKt
  let _ ← tekKafkaProducerFlush kt.producer
  Prog.forEach tekKafkaTopicDispose kt.topics.items
  tekKafkaProducerDispose kt.producer
  call (.storeKt { kt with producer := none })
  Prog.forEach tekKafkaTopicFree kt.topics.items
  safeFreeArray kt.topics.ptr
  call (.storeKt { kt with producer := none, topics := .null })
  Prog.forEach tekKafkaTopicFree kt.retired.items
  safeFreeArray kt.retired.ptr
  call (.storeKt { kt with producer := none, topics := .null, retired := .null })

/-- `kafka_table_dismiss_all` -/
def kafkaTableDismissAll : K Unit := writing kafkaTableDismissAllLocked

/-- `kafka_table_shutdown` -/
def kafkaTableShutdown : K Unit := do
  kafkaTableDismissAll
  writing kafkaTableClearParamsLocked

/-- The critical section of `kafka_table_unset_param`. -/
def kafkaTableUnsetParamLocked (name : CStr) : K Int := do
  let kt ← call .loadKt
  if kt.producer.isSome then
    pure (-1)
  else
    match ← Prog.scan (paramIs name) 0 kt.params.items with
    | none        => pure (-1)
    | some (i, p) =>
        freeParam p
        call (.storeKt { kt with
          params := { kt.params with items := swapRemove i kt.params.items } })
        pure 0

/-- `kafka_table_unset_param` -/
def kafkaTableUnsetParam (name : Option CStr) : K Int :=
  match name with
  | none   => pure (-1)
  | some n =>
      if zstr (some n) then pure (-1) else writing (kafkaTableUnsetParamLocked n)

/-- `kafka_topic_get_stats` -/
def kafkaTopicGetStats (topic : Option CStr) : K (UInt32 × UInt32) :=
  reading do
    match ← kafkaTableFindLocked topic with
    | none    => pure (0, 0)
    | some tt => tekKafkaTopicGetStats tt

/-! ### The table's functions as calls -/

/-- A call a session makes to the table.  `kafka_table_shutdown` is not one: it runs alone, when
the module is unloaded. -/
inductive TableCall where
  | connected
  | validateParam (name value : Option CStr)
  | setParam (name value : Option CStr)
  | connect (brokers : Option CStr)
  | getBrokers (buflen : Nat)
  | describeParams (buflen : Nat)
  | exists (topic : Option CStr)
  | create (topicName : Option CStr)
  | send (topic : Option CStr) (data : List UInt8)
  | dismiss (topic : Option CStr)
  | dismissAll
  | unsetParam (name : Option CStr)
  | getStats (topic : Option CStr)
  deriving DecidableEq

/-- What it returns. -/
@[reducible]
def TableCall.Ret : TableCall → Type
  | .connected         => Bool
  | .validateParam _ _ => Except String Unit
  | .setParam _ _      => Except String Unit
  | .connect _         => Except String Unit
  | .getBrokers _      => Int × List UInt8
  | .describeParams _  => Int × List UInt8
  | .exists _          => Bool
  | .create _          => Int
  | .send _ _          => Int
  | .dismiss _         => Int
  | .dismissAll        => Unit
  | .unsetParam _      => Int
  | .getStats _        => UInt32 × UInt32

/-- The function a call is of. -/
def tableProg : (c : TableCall) → K c.Ret
  | .connected                => kafkaTableConnected
  | .validateParam name value => kafkaTableValidateParam name value
  | .setParam name value      => kafkaTableSetParam name value
  | .connect brokers          => kafkaTableConnect brokers
  | .getBrokers buflen        => kafkaTableGetBrokers buflen
  | .describeParams buflen    => kafkaTableDescribeParams buflen
  | .exists topic             => kafkaTableExists topic
  | .create topicName         => kafkaTableCreate topicName
  | .send topic data          => kafkaTableSend topic data
  | .dismiss topic            => kafkaTableDismiss topic
  | .dismissAll               => kafkaTableDismissAll
  | .unsetParam name          => kafkaTableUnsetParam name
  | .getStats topic           => kafkaTopicGetStats topic

end TrigEmit
