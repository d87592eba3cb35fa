import TrigEmitKafka.Source.Buffers

/-!
# Source — the SQL functions

The functions a session calls (`kafka-cmd-*.c`), as programs over the calls of `kafka-table.c`:
each of those takes the lock once, so between two calls of a program other sessions may run
theirs.  `tableIface` runs one such call from start to end, with librdkafka and the poll threads
at work meanwhile: this is the module at the granularity of its critical sections.

A string argument is counted, and may hold NUL bytes; a SQL NULL is `none`.  A function that
reports failure does it through its value and through `*error`: both are kept.  The `_init`
and `_deinit` functions are in `Source.Statements`.
-/

namespace TrigEmit

open Conc (Iface Item LProg exec)

/-- `KAFKA_MAX_SETUP_VAR_LEN` -/
def maxSetupVarLen : Nat := 512

/-- A string argument, as `args->args[i]` and `args->lengths[i]` give it. -/
abbrev SqlArg := Option (List UInt8)

/-- A program of a session over the calls to the table. -/
abbrev Session := LProg TableCall TableCall.Ret

/-- A call to the table. -/
abbrev table (c : TableCall) : Session c.Ret := LProg.op c

/-- The value of a numeric function, and `*error`. -/
structure SqlInt where
  value : Int
  error : Bool
  deriving DecidableEq

/-- `*error = 1; return -1;` -/
def SqlInt.failed : SqlInt := ⟨-1, true⟩

/-- A counted argument in a `char buf[limit + 1]`, copied there and terminated, as a C function reads
it.  What is in the buffer before is not set: here, nothing that would terminate it. -/
def localCopy (limit : Nat) (bs : List UInt8) : Option CStr :=
  (Buffer.copyArg (List.replicate (limit + 1) 255) bs bs.length).bind Buffer.cstr

/-- A counted argument of 1 to `limit` bytes, in its local copy. -/
def terminated (limit : Nat) (arg : SqlArg) : Option CStr :=
  match arg with
  | none    => none
  | some bs => if bs.length = 0 ∨ limit < bs.length then none else localCopy limit bs

/-- The end of `kafka_send`: the message goes to a topic that is there. -/
def sendMessage (topic : CStr) (data : List UInt8) : Session SqlInt := do
  let sent : Int ← table (.send (some topic) data)
  if sent < 0 then pure .failed else pure ⟨sent, false⟩

/-- `kafka_send` -/
def kafkaSend (topic msg : SqlArg) : Session SqlInt :=
  match terminated maxTopicLen topic, msg with
  | some t, some data => do
      let found : Bool ← table (.exists (some t))
      if found then
        sendMessage t data
      else do
        let created : Int ← table (.create (some t))
        if created ≠ 0 then pure .failed else sendMessage t data
  | _, _ => pure .failed

/-- The line `kafka_stats` prints; it always fits the buffer. -/
def statsLine (transferred failed : UInt32) : List UInt8 :=
  (CStr.lit ("Transferred: " ++ toString transferred.toNat ++ " Failed: " ++
    toString failed.toNat)).1

/-- `kafka_stats` -/
def kafkaStats (topic : SqlArg) : Session (List UInt8) := do
  let stats ← table (.getStats (some ((terminated maxTopicLen topic).getD .empty)))
  pure (statsLine stats.1 stats.2)

/-- `kafka_disconnect`: the argument is missing, or there is one. -/
def kafkaDisconnect : Option SqlArg → Session SqlInt
  | none       => do
      table .dismissAll
      pure ⟨0, false⟩
  | some topic =>
      match terminated maxTopicLen topic with
      | none   => pure .failed
      | some t => do
          let r : Int ← table (.dismiss (some t))
          if r ≠ 0 then pure .failed else pure ⟨0, false⟩

/-- `kafka_connect` -/
def kafkaConnect (brokers : SqlArg) : Session SqlInt :=
  match terminated maxSetupVarLen brokers with
  | none   => pure .failed
  | some b => do
      match ← table (.connect (some b)) with
      | .error _ => pure .failed
      | .ok _    => pure ⟨0, false⟩

/-- `kafka_connection_param`: a value of SQL NULL forgets the property. -/
def kafkaConnectionParam (name value : SqlArg) : Session SqlInt :=
  match terminated maxSetupVarLen name with
  | none   => pure .failed
  | some n =>
      match value with
      | none    => do
          let r : Int ← table (.unsetParam (some n))
          if r ≠ 0 then pure .failed else pure ⟨0, false⟩
      | some bs =>
          if maxSetupVarLen < bs.length then
            pure .failed
          else do
            match ← table (.setParam (some n) (localCopy maxSetupVarLen bs)) with
            | .error _ => pure .failed
            | .ok _    => pure ⟨0, false⟩

/-- `KAFKA_INFO_MAX_LEN` -/
def infoMaxLen : Nat := 1024

/-- `PACKAGE_STRING`: a literal the build takes from git, so of a length an `int` counts. -/
abbrev PackageString := {s : CStr // s.1.length < 2 ^ 30}

/-- What `kafka_info` formats, before it is cut to the buffer. -/
def infoText (package : PackageString) (brk : List UInt8) (nparams : Int)
    (params : List UInt8) : List UInt8 :=
  (CStr.lit "Version: ").1 ++ package.1.1 ++ (CStr.lit "\nBrokers: ").1 ++ brk ++
    (CStr.lit "\nParameters: ").1 ++ (CStr.lit (toString nparams)).1 ++ (CStr.lit "\n").1 ++ params

/-- `*length` in `kafka_info`: what `snprintf` would have written, clamped to what it did. -/
def infoLength (text : List UInt8) : Nat :=
  let written := snprintfResult text
  if written < 0 then 0
  else if (infoMaxLen : Int) ≤ written then infoMaxLen - 1
  else written.toNat

/-- `kafka_info`: its buffer before the terminator, and `*length`. -/
def kafkaInfo (package : PackageString) : Session (List UInt8 × Nat) := do
  let brokers : Int × List UInt8 ← table (.getBrokers (maxSetupVarLen + 1))
  let params : Int × List UInt8 ← table (.describeParams (infoMaxLen / 2))
  let brk := if brokers.1 = 0 then (CStr.lit "Not connected").1 else brokers.2
  let text := infoText package brk params.1 params.2
  pure (text.take (infoMaxLen - 1), infoLength text)

/-- A call of a SQL function. -/
inductive Command where
  | connect (brokers : SqlArg)
  | connectionParam (name value : SqlArg)
  | disconnect (topic : Option SqlArg)
  | send (topic msg : SqlArg)
  | stats (topic : SqlArg)
  | info
  deriving DecidableEq

/-- What it returns. -/
@[reducible]
def Command.Ret : Command → Type
  | .stats _ => List UInt8
  | .info    => List UInt8 × Nat
  | _        => SqlInt

/-- The function a call is of. -/
def commandProg (package : PackageString) : (c : Command) → Session c.Ret
  | .connect brokers            => kafkaConnect brokers
  | .connectionParam name value => kafkaConnectionParam name value
  | .disconnect topic           => kafkaDisconnect topic
  | .send topic msg             => kafkaSend topic msg
  | .stats topic                => kafkaStats topic
  | .info                       => kafkaInfo package

/-- What librdkafka and the allocator answer during one call to the table, and what happens
meanwhile. -/
abbrev Course := List (Item Ans Ev)

/-- The module's functions, each run from start to end. -/
def tableIface : Iface Tab Flow TableCall TableCall.Ret Course Ev where
  act t c course T d := exec iface t (tableProg c) course T d
  env e T d := e.act T d
  valid _ _ _ _ _ := True

end TrigEmit
