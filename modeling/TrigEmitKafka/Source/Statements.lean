import TrigEmitKafka.Source.Commands

/-!
# Source — the SQL functions in a statement

The server calls the `_init` function of a SQL function once for every use of it in a statement;
if that accepts, the function itself once for every row, and `_deinit` once at the end.  `_init`
sees the number and the types of the arguments, and the values of those that are constant.

`initChecks` is what the `_init` functions check, as programs over the calls to the table.
`kafka_info` has a result buffer of its own, which lives from `_init` to `_deinit`; `statement` is
one use of a function in a statement, as a program over the calls to the table and those on such
buffers (`UdfOp`).

`initid->max_length`, `maybe_null` and `const_item` are left out: nothing here reads them.
-/

namespace TrigEmit

open Conc (Iface Item LProg Prog exec)
open Store (Heap)

/-- `Item_result`, the type of an argument. -/
inductive ItemResult where
  | string
  | real
  | int
  | row
  | decimal
  deriving DecidableEq

/-- An argument as `_init` sees it: its type, and its value if it is constant. -/
structure UdfArg where
  type : ItemResult
  const : SqlArg
  deriving DecidableEq

/-- A SQL function. -/
inductive SqlFunction where
  | connect
  | connectionParam
  | disconnect
  | send
  | stats
  | info
  deriving DecidableEq

/-! ### `_init` -/

/-- `MYSQL_ERRMSG_SIZE`, the size of `message`. -/
def errmsgSize : Nat := 512

/-- `KAFKA_ERRBUF_LEN` -/
def errbufLen : Nat := 512

/-- `strncpy(message, text, n)`: the text, filled up with NULs. -/
def strncpy (n : Nat) (text : CStr) : Buffer :=
  text.1.take n ++ List.replicate (n - text.1.length) 0

/-- What `_init` leaves of `args->arg_type[]`, and of `message` when it refuses the arguments. -/
structure InitResult where
  types : List ItemResult
  refused : Option Buffer
  deriving DecidableEq

/-- `strncpy(message, text, MYSQL_ERRMSG_SIZE); return 1;` -/
def refuse (types : List ItemResult) (text : String) : InitResult :=
  ⟨types, some (strncpy errmsgSize (.lit text))⟩

/-- `return 0;` -/
def accept (types : List ItemResult) : InitResult := ⟨types, none⟩

/-- `args->arg_type[i] = STRING_RESULT`, for every argument. -/
def coerced (args : List UdfArg) : List ItemResult := args.map fun _ => .string

/-- The first two arguments, where both are constant. -/
def constPair : List UdfArg → Option (List UInt8 × List UInt8)
  | [⟨_, some name⟩, ⟨_, some value⟩] => some (name, value)
  | _                                 => none

/-- What `snprintf(errbuf, errbuflen, "%s", ...)` leaves of a text. -/
def errbuf (text : String) : CStr := .ofBytes ((CStr.lit text).1.take (errbufLen - 1))

/-- `kafka_connect_init` -/
def kafkaConnectInit (args : List UdfArg) : Session InitResult :=
  let types := args.map (·.type)
  if args.length ≠ 1 then
    pure (refuse types "Wrong arguments. Need: 'broker:port,...' (string)")
  else do
    let connected : Bool ← table .connected
    if connected then
      pure (refuse (coerced args) "Already connected. Call kafka_disconnect() first.")
    else
      pure (accept (coerced args))

/-- `kafka_connection_param_init` -/
def kafkaConnectionParamInit (args : List UdfArg) : Session InitResult :=
  let types := args.map (·.type)
  if args.length ≠ 2 then
    pure (refuse types "Wrong arguments. Need: 'property' (string), 'value' (string)")
  else do
    let connected : Bool ← table .connected
    if connected then
      pure (refuse (coerced args)
        "Already connected. Parameters can only be set while disconnected.")
    else
      match constPair args with
      | none               => pure (accept (coerced args))
      | some (name, value) =>
          if name.length = 0 ∨ maxSetupVarLen < name.length ∨ maxSetupVarLen < value.length then
            pure (refuse (coerced args)
              "Wrong arguments. Property name or value is empty or too long.")
          else do
            match ← table (.validateParam (localCopy maxSetupVarLen name) (localCopy maxSetupVarLen value)) with
            | .error text => pure ⟨coerced args, some (strncpy errmsgSize (errbuf text))⟩
            | .ok _       => pure (accept (coerced args))

/-- `kafka_disconnect_init` -/
def kafkaDisconnectInit (args : List UdfArg) : Session InitResult :=
  if 1 < args.length then
    pure (refuse (args.map (·.type)) "Wrong arguments. Need: none, or 'topic name' (string)")
  else
    pure (accept (coerced args))

/-- `kafka_send_init` -/
def kafkaSendInit (args : List UdfArg) : Session InitResult :=
  if args.length ≠ 2 then
    pure (refuse (args.map (·.type)) "Wrong arguments to function.")
  else do
    let connected : Bool ← table .connected
    if connected then
      pure (accept (coerced args))
    else
      pure (refuse (coerced args) "Not connected. Call kafka_connect() first.")

/-- `kafka_stats_init`: the argument is not coerced. -/
def kafkaStatsInit (args : List UdfArg) : Session InitResult :=
  let types := args.map (·.type)
  match args with
  | [arg] =>
      if arg.type ≠ .string then
        pure (refuse types "Wrong arguments. Need: 'topic' (string)")
      else do
        let connected : Bool ← table .connected
        if connected then
          match arg.const with
          | none       => pure (accept types)
          | some topic =>
              if topic.length = 0 ∨ maxTopicLen < topic.length then
                pure (refuse types "Wrong arguments. Invalid topic name length.")
              else do
                let found : Bool ← table (.exists (localCopy maxTopicLen topic))
                if found then
                  pure (accept types)
                else
                  pure (refuse types "Cannot show stats for an unused topic")
        else
          pure (refuse types "Kafka has not been initialized.")
  | _ => pure (refuse types "Wrong arguments. Need: 'topic name' (string)")

/-- `kafka_info_init` before it allocates the buffer. -/
def kafkaInfoInit (args : List UdfArg) : Session InitResult :=
  if args.length ≠ 0 then
    pure (refuse (args.map (·.type)) "Wrong arguments to function.")
  else
    pure (accept [])

/-- What the `_init` functions check. -/
def initChecks : SqlFunction → List UdfArg → Session InitResult
  | .connect         => kafkaConnectInit
  | .connectionParam => kafkaConnectionParamInit
  | .disconnect      => kafkaDisconnectInit
  | .send            => kafkaSendInit
  | .stats           => kafkaStatsInit
  | .info            => kafkaInfoInit

/-! ### The result buffers of `kafka_info` -/

/-- A call of a SQL function: to the table, or on its own result buffer. -/
inductive UdfOp where
  | table (c : TableCall)
  /-- `initid->ptr = malloc(KAFKA_INFO_MAX_LEN)` -/
  | mallocInfo
  /-- `snprintf(initid->ptr, KAFKA_INFO_MAX_LEN, ...)`, which leaves `text` there, terminated. -/
  | writeInfo (p : Option Nat) (text : List UInt8)
  | freeInfo (p : Nat)

/-- What it returns. -/
@[reducible]
def UdfOp.Res : UdfOp → Type
  | .table c         => c.Ret
  | .mallocInfo      => Option Nat
  | .writeInfo _ _   => Unit
  | .freeInfo _      => Unit

/-- A result buffer, and the statement whose `_init` allocated it. -/
structure InfoBuf where
  owner : Nat
  buf : Buffer

/-- What moves without the lock, with the result buffers. -/
structure UdfFlow where
  flow : Flow
  infos : Heap InfoBuf

def UdfFlow.init : UdfFlow := ⟨.init, .empty⟩

/-- An answer from outside: what happens during a call to the table, or whether `malloc` succeeds. -/
inductive UdfAns where
  | course (course : Course)
  | malloc (succeeds : Bool)

/-- A call of the statement `t`. -/
def UdfOp.act (t : Nat) : (o : UdfOp) → UdfAns → Tab → UdfFlow → Option (o.Res × Tab × UdfFlow)
  | .table c, .course course, T, d =>
      (exec iface t (tableProg c) course T d.flow).map fun x => (x.1, x.2.1, { d with flow := x.2.2 })
  | .mallocInfo, .malloc true, T, d =>
      some (some d.infos.next, T,
        { d with infos := d.infos.alloc ⟨t, List.replicate infoMaxLen 0⟩ })
  | .mallocInfo, .malloc false, T, d => some (none, T, d)
  | .writeInfo p text, _, T, d =>
      p.bind fun p => (d.infos.get p).bind fun x =>
        (x.buf.write 0 (text ++ [0])).map fun buf =>
          ((), T, { d with infos := d.infos.set p { x with buf := buf } })
  | .freeInfo p, _, T, d => some ((), T, { d with infos := d.infos.free p })
  | _, _, _, _ => none

/-- What a call needs: the buffer is there, and has room. -/
def UdfOp.Valid : UdfOp → UdfFlow → Prop
  | .writeInfo p text, d =>
      ∃ q x, p = some q ∧ d.infos.get q = some x ∧ text.length < x.buf.length
  | .freeInfo p, d       => d.infos.Live p
  | _, _                 => True

/-- The functions, each call to the table run from start to end. -/
def udfIface : Iface Tab UdfFlow UdfOp UdfOp.Res UdfAns Ev where
  act t o a T d := o.act t a T d
  env e T d := (e.act T d.flow).map fun flow => { d with flow := flow }
  valid _ _ o _ d := o.Valid d

/-! ### A statement -/

/-- A program over these calls. -/
abbrev Udf := LProg UdfOp UdfOp.Res

/-- The call `o`. -/
abbrev udf (o : UdfOp) : Udf o.Res := LProg.op o

/-- A program that calls the table alone. -/
def Session.udf {α : Type} : Session α → Udf α
  | .ret a            => .ret a
  | .call (.op c) k   => .call (.op (.table c)) fun r => Session.udf (k r)
  | .call .rdlock k   => .call .rdlock fun r => Session.udf (k r)
  | .call .wrlock k   => .call .wrlock fun r => Session.udf (k r)
  | .call .unlock k   => .call .unlock fun r => Session.udf (k r)
  | .loop body k      => .loop (Session.udf body) fun b => Session.udf (k b)

/-- The `_init` function: what it leaves, and `initid->ptr`. -/
def initProg (fn : SqlFunction) (args : List UdfArg) : Udf (InitResult × Option Nat) := do
  let r : InitResult ← Session.udf (initChecks fn args)
  match fn, r.refused with
  | .info, none => do
      match ← udf .mallocInfo with
      | none   => pure (refuse r.types "Out of memory.", none)
      | some p => pure (r, some p)
  | _, _ => pure (r, none)

/-- The call of a function for a row of arguments, where they are as many as it takes. -/
def SqlFunction.command : SqlFunction → List SqlArg → Option Command
  | .connect, [brokers]             => some (.connect brokers)
  | .connectionParam, [name, value] => some (.connectionParam name value)
  | .disconnect, []                 => some (.disconnect none)
  | .disconnect, [topic]            => some (.disconnect (some topic))
  | .send, [topic, msg]             => some (.send topic msg)
  | .stats, [topic]                 => some (.stats topic)
  | .info, []                       => some .info
  | _, _                            => none

/-- The function itself, for a row: `kafka_info` leaves its result in `initid->ptr`. -/
def rowProg (package : PackageString) (ptr : Option Nat) : Command → Udf Unit
  | .info => do
      let r : List UInt8 × Nat ← Session.udf (kafkaInfo package)
      udf (.writeInfo ptr r.1)
  | c => do
      let _ ← Session.udf (commandProg package c)
      pure ()

/-- The `_deinit` function: `safe_free(initid->ptr)` in `kafka_info_deinit`, nothing in the others. -/
def deinitProg : Option Nat → Udf Unit
  | none   => pure ()
  | some p => udf (.freeInfo p)

/-- One use of a function in a statement. -/
structure Statement where
  fn : SqlFunction
  args : List UdfArg
  /-- The arguments of each row. -/
  rows : List (List SqlArg)

/-- The function is called for every row. -/
def rowsProg (package : PackageString) (fn : SqlFunction) (ptr : Option Nat) :
    List (List SqlArg) → Udf Unit
  | []          => pure ()
  | row :: rows => do
      match fn.command row with
      | some c => rowProg package ptr c
      | none   => pure ()
      rowsProg package fn ptr rows

/-- `_init`, the rows, `_deinit`: what `message` holds if `_init` refuses. -/
def statement (package : PackageString) (st : Statement) : Udf (Option Buffer) := do
  let (r, ptr) ← initProg st.fn st.args
  match r.refused with
  | some message => pure (some message)
  | none         => do
      rowsProg package st.fn ptr st.rows
      deinitProg ptr
      pure none

end TrigEmit
