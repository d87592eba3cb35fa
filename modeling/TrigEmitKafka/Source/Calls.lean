import TrigEmitKafka.Source.Records
import TrigEmitKafka.Support.Heap
import TrigEmitKafka.Support.LockMachine

/-!
# Source — the state, and the calls the module makes

The state is in the two parts of `Conc.Iface`.  `Tab` is what `ktlock` guards: the static `kt`,
and every object the module allocates or librdkafka hands it, one heap a type.  `Flow` is what
moves without the lock: the messages librdkafka holds, the delivery reports counted so far, the
records' counters and throttles, the poll threads.

An `Op` is one call the C code makes, to libc, to librdkafka or to memory under the lock.  Its
outcome may depend on an answer from outside (`Ans`): an allocation or a librdkafka call that
fails, an `rd_kafka_produce` that finds the queue full.  `Op.Valid` is what the call needs so as
not to be undefined behaviour or break librdkafka's rules.

Assumed of what is not in this repository:

* a message counts in `rd_kafka_outq_len` from the moment `rd_kafka_produce` accepts it until
  its delivery callback has returned, and the queue's limit keeps that length within an `int`;
* `rd_kafka_destroy` serves the outstanding reports before it returns;
* `rd_kafka_produce` refuses a payload above `message.max.bytes`; its -1 and the
  `rd_kafka_last_error` read right after it are one result here;
* an allocation above `PTRDIFF_MAX` fails.

Assumed of what is: the callbacks of one record, and its disposal, take effect one at a time.  What
`dr_msg_cb` does to a record between its start and its return is one step (`Ev.cbCount`), and what
`tek_kafka_topic_dispose` does to the throttle is another (`Op.flushSuppressed`).
`Results/Confinement.lean` says where two of them are at one record at once.

The throwaway configuration of `kafka_table_validate_param` lives outside the lock and belongs
to the calling thread (`Flow.scratch`).  Lines printed to the error log are kept where they are
about deliveries; `Tab.disposed`, `Tab.leaked` and `Tab.handed` only record what happened.
-/

namespace TrigEmit

open Store (Heap)
open Conc (Held Iface)

/-- What `ktlock` guards. -/
structure Tab where
  kt : KafkaTables
  strs : Heap CStr
  /-- The three arrays, by their size in bytes. -/
  arrays : Heap Nat
  topics : Heap TekTopic
  producers : Heap TekKafka
  confs : Heap Conf
  rks : Heap RdKafka
  rkts : Heap RdKafkaTopic
  /-- The poll threads not joined yet, by their argument. -/
  threads : Heap Nat
  /-- The records whose throttle was flushed by `tek_kafka_topic_dispose`. -/
  disposed : List Nat
  /-- The records `kafka_table_remove_locked` could not park. -/
  leaked : List Nat
  /-- The configurations handed to `rd_kafka_new`, oldest first. -/
  handed : List Conf

def Tab.init : Tab :=
  ⟨.init, .empty, .empty, .empty, .empty, .empty, .empty, .empty, .empty, [], [], []⟩

/-- A thread a callback may run on. -/
inductive Thread where
  | session (t : Nat)
  | poll (thr : Nat)
  deriving DecidableEq

/-- A message `rd_kafka_produce` accepted; `tt` is its opaque. -/
structure Message where
  id : Nat
  rkt : Nat
  key : Option (List UInt8)
  payload : List UInt8
  tt : Nat
  deriving DecidableEq

/-- How far a message librdkafka holds has come. -/
inductive Stage where
  | queued
  /-- Its callback runs on `u`, and has not touched the record yet. -/
  | running (u : Thread) (err : RespErr)
  /-- Its callback has counted it, and has not returned yet. -/
  | counted (u : Thread)
  deriving DecidableEq

/-- A message librdkafka holds. -/
structure Pending where
  msg : Message
  stage : Stage
  deriving DecidableEq

/-- A delivery report that was counted. -/
structure Served where
  msg : Message
  err : RespErr
  now : Int
  deriving DecidableEq

/-- Where a poll thread is in `producer_thread`: about to read `running`, inside
`rd_kafka_poll`, or done. -/
inductive PollPhase where
  | checking
  | polling
  | exited
  deriving DecidableEq

/-- What moves without the lock. -/
structure Flow where
  inflight : List Pending
  accepted : List Message
  served : List Served
  report : Nat → Report
  log : List (Nat × Line)
  /-- The sessions inside `rd_kafka_poll`, `rd_kafka_flush` or `rd_kafka_destroy`. -/
  serving : List Nat
  phase : Nat → PollPhase
  scratch : Nat → List Nat
  nextScratch : Nat

def Flow.init : Flow :=
  ⟨[], [], [], fun _ => .zero, [], [], fun _ => .exited, fun _ => [], 0⟩

/-- One call of the C code. -/
inductive Op where
  -- memory under the lock
  | loadKt
  | storeKt (kt : KafkaTables)
  | loadTopic (tt : Nat)
  | storeTopic (tt : Nat) (v : TekTopic)
  | loadTk (tk : Nat)
  | storeTk (tk : Nat) (v : TekKafka)
  | readStr (s : Str)
  | strdup (s : CStr)
  | freeStr (p : Nat)
  | realloc (old : Option Nat) (bytes : Nat)
  | freeArray (p : Nat)
  | mallocTopic
  | freeTopic (tt : Nat)
  | mallocTk
  | freeTk (tk : Nat)
  -- librdkafka and pthread
  | rdKafkaConfNew
  | rdKafkaConfSet (conf : Nat) (name value : CStr)
  | rdKafkaConfSetDrMsgCb (conf : Nat)
  | rdKafkaConfDestroy (conf : Nat)
  | rdKafkaNew (conf : Nat)
  | rdKafkaDestroy (rk : Nat)
  | rdKafkaTopicNew (rk : Nat) (name : CStr)
  | rdKafkaTopicDestroy (rkt : Nat)
  | pthreadCreate (tk : Nat)
  | pthreadJoin (thr : Nat)
  | rdKafkaOutqLen (rk : Nat)
  /-- A call that serves delivery reports begins: `rd_kafka_poll`, `_flush` or `_destroy`. -/
  | serveBegin (rk : Nat)
  /-- `rd_kafka_poll` or `rd_kafka_flush` returns. -/
  | serveEnd
  | rdKafkaProduce (rkt : Nat) (payload : List UInt8) (key : Option (List UInt8)) (tt : Nat)
  -- the record's other part
  | loadTransferred (tt : Nat)
  | loadFailed (tt : Nat)
  /-- The end of `tek_kafka_topic_dispose`: print and clear what the throttle holds back. -/
  | flushSuppressed (tt : Nat)
  /-- `Cannot retire topic record, leaking it`. -/
  | leak (tt : Nat)
  -- the throwaway configuration of `kafka_table_validate_param`
  | scratchNew
  | scratchSet (c : Nat) (name value : CStr)
  | scratchDestroy (c : Nat)
  /-- What C leaves undefined: a string read through NULL, an index past the count. -/
  | undefined

/-- What a call returns: a pointer or NULL, an error text or not, a value read. -/
@[reducible]
def Op.Res : Op → Type
  | .loadKt                => KafkaTables
  | .loadTopic _           => TekTopic
  | .loadTk _              => TekKafka
  | .readStr _             => CStr
  | .strdup _              => Option Str
  | .realloc _ _           => Option Nat
  | .mallocTopic           => Option Nat
  | .mallocTk              => Option Nat
  | .rdKafkaConfNew        => Option Nat
  | .rdKafkaConfSet _ _ _  => Except String Unit
  | .rdKafkaNew _          => Except String Nat
  | .rdKafkaTopicNew _ _   => Option Nat
  | .pthreadCreate _       => Option Nat
  | .rdKafkaOutqLen _      => Nat
  | .rdKafkaProduce _ _ _ _ => Except RespErr Unit
  | .loadTransferred _     => UInt32
  | .loadFailed _          => UInt32
  | .scratchNew            => Option Nat
  | .scratchSet _ _ _      => Except String Unit
  | _                      => Unit

/-- An answer from outside: the call succeeds, finds the queue full, or fails. -/
inductive Ans where
  | ok
  | queueFull
  | fail (err : RespErr) (text : String)
  deriving DecidableEq

/-- A step of librdkafka or of a poll thread. -/
inductive Ev where
  /-- The callback of the message at `i` starts on `u`, with `rkmessage->err`. -/
  | cbEnter (i : Nat) (u : Thread) (err : RespErr)
  /-- `dr_msg_cb` does its work, at the clock reading `now`. -/
  | cbCount (i : Nat) (now : Int)
  | cbReturn (i : Nat)
  /-- The poll thread reads `tk->running`. -/
  | pollCheck (thr : Nat)
  | pollReturn (thr : Nat)

namespace Flow

/-- What `dr_msg_cb` does for the report of `m`. -/
def count (d : Flow) (m : Message) (err : RespErr) (now : Int) : Flow :=
  let r := drMsgCb (d.report m.tt) err now
  { d with
    served := d.served ++ [⟨m, err, now⟩]
    report := Function.update d.report m.tt r.1
    log := d.log ++ r.2.map fun l => (m.tt, l) }

end Flow

/-- A step of the environment. -/
def Ev.act : Ev → Tab → Flow → Option Flow
  | .cbEnter i u err, _, d =>
      match d.inflight[i]? with
      | some ⟨m, .queued⟩ => some { d with inflight := d.inflight.set i ⟨m, .running u err⟩ }
      | _                 => none
  | .cbCount i now, _, d =>
      match d.inflight[i]? with
      | some ⟨m, .running u err⟩ =>
          some { d.count m err now with inflight := d.inflight.set i ⟨m, .counted u⟩ }
      | _                        => none
  | .cbReturn i, _, d =>
      match d.inflight[i]? with
      | some ⟨_, .counted _⟩ => some { d with inflight := d.inflight.eraseIdx i }
      | _                    => none
  | .pollCheck thr, T, d =>
      match d.phase thr, (T.threads.get thr).bind T.producers.get with
      | .checking, some tk =>
          some { d with
            phase := Function.update d.phase thr (if tk.running then .polling else .exited) }
      | _, _ => none
  | .pollReturn thr, _, d =>
      match d.phase thr with
      | .polling => some { d with phase := Function.update d.phase thr .checking }
      | _        => none

/-- A call of thread `t` at an answer. -/
def Op.act (t : Nat) : (o : Op) → Ans → Tab → Flow → Option (o.Res × Tab × Flow)
  | .loadKt, _, T, d => some (T.kt, T, d)
  | .storeKt kt, _, T, d => some ((), { T with kt := kt }, d)
  | .loadTopic p, _, T, d => (T.topics.get p).map fun tt => (tt, T, d)
  | .storeTopic p v, _, T, d => some ((), { T with topics := T.topics.set p v }, d)
  | .loadTk p, _, T, d => (T.producers.get p).map fun tk => (tk, T, d)
  | .storeTk p v, _, T, d => some ((), { T with producers := T.producers.set p v }, d)
  | .readStr s, _, T, d => some (s.val, T, d)
  | .strdup s, .ok, T, d =>
      some (some ⟨T.strs.next, s⟩, { T with strs := T.strs.alloc s }, d)
  | .strdup _, .fail _ _, T, d => some (none, T, d)
  | .freeStr p, _, T, d => some ((), { T with strs := T.strs.free p }, d)
  | .realloc old n, .ok, T, d =>
      if n ≤ ptrdiffMax then
        let rest := match old with
          | none   => T.arrays
          | some p => T.arrays.free p
        some (some rest.next, { T with arrays := rest.alloc n }, d)
      else none
  | .realloc _ _, .fail _ _, T, d => some (none, T, d)
  | .freeArray p, _, T, d => some ((), { T with arrays := T.arrays.free p }, d)
  | .mallocTopic, .ok, T, d =>
      some (some T.topics.next, { T with topics := T.topics.alloc .zero },
        { d with report := Function.update d.report T.topics.next .zero })
  | .mallocTopic, .fail _ _, T, d => some (none, T, d)
  | .freeTopic p, _, T, d => some ((), { T with topics := T.topics.free p }, d)
  | .mallocTk, .ok, T, d =>
      some (some T.producers.next, { T with producers := T.producers.alloc .zero }, d)
  | .mallocTk, .fail _ _, T, d => some (none, T, d)
  | .freeTk p, _, T, d => some ((), { T with producers := T.producers.free p }, d)
  | .rdKafkaConfNew, .ok, T, d =>
      some (some T.confs.next, { T with confs := T.confs.alloc ⟨[], false⟩ }, d)
  | .rdKafkaConfNew, .fail _ _, T, d => some (none, T, d)
  | .rdKafkaConfSet p name value, .ok, T, d =>
      (T.confs.get p).map fun c =>
        (.ok (), { T with confs := T.confs.set p { c with sets := c.sets ++ [(name, value)] } }, d)
  | .rdKafkaConfSet _ _ _, .fail _ text, T, d => some (.error text, T, d)
  | .rdKafkaConfSetDrMsgCb p, _, T, d =>
      (T.confs.get p).map fun c =>
        ((), { T with confs := T.confs.set p { c with drMsgCb := true } }, d)
  | .rdKafkaConfDestroy p, _, T, d => some ((), { T with confs := T.confs.free p }, d)
  | .rdKafkaNew p, .ok, T, d =>
      (T.confs.get p).map fun c =>
        (.ok T.rks.next,
          { T with
            confs := T.confs.free p, rks := T.rks.alloc ⟨c⟩, handed := T.handed ++ [c] }, d)
  | .rdKafkaNew p, .fail _ text, T, d =>
      (T.confs.get p).map fun c => (.error text, { T with handed := T.handed ++ [c] }, d)
  | .rdKafkaDestroy p, _, T, d =>
      if d.inflight = [] then
        some ((), { T with rks := T.rks.free p }, { d with serving := d.serving.erase t })
      else none
  | .rdKafkaTopicNew rk name, .ok, T, d =>
      some (some T.rkts.next, { T with rkts := T.rkts.alloc ⟨rk, name⟩ }, d)
  | .rdKafkaTopicNew _ _, .fail _ _, T, d => some (none, T, d)
  | .rdKafkaTopicDestroy p, _, T, d => some ((), { T with rkts := T.rkts.free p }, d)
  | .pthreadCreate tk, .ok, T, d =>
      some (some T.threads.next, { T with threads := T.threads.alloc tk },
        { d with phase := Function.update d.phase T.threads.next .checking })
  | .pthreadCreate _, .fail _ _, T, d => some (none, T, d)
  | .pthreadJoin thr, _, T, d =>
      match d.phase thr with
      | .exited => some ((), { T with threads := T.threads.free thr }, d)
      | _       => none
  | .rdKafkaOutqLen _, _, T, d => some (d.inflight.length, T, d)
  | .serveBegin _, _, T, d => some ((), T, { d with serving := t :: d.serving })
  | .serveEnd, _, T, d => some ((), T, { d with serving := d.serving.erase t })
  | .rdKafkaProduce rkt payload key tt, .ok, T, d =>
      if payload.length ≤ messageMaxBytes then
        let m : Message := ⟨d.accepted.length, rkt, key, payload, tt⟩
        some (.ok (), T,
          { d with inflight := d.inflight ++ [⟨m, .queued⟩], accepted := d.accepted ++ [m] })
      else none
  | .rdKafkaProduce _ _ _ _, .queueFull, T, d => some (.error queueFull, T, d)
  | .rdKafkaProduce _ _ _ _, .fail err _, T, d => some (.error err, T, d)
  | .loadTransferred p, _, T, d => some ((d.report p).transferred, T, d)
  | .loadFailed p, _, T, d => some ((d.report p).failed, T, d)
  | .flushSuppressed p, _, T, d =>
      let r := disposeSuppressed (d.report p)
      some ((), { T with disposed := p :: T.disposed },
        { d with
          report := Function.update d.report p r.1
          log := d.log ++ r.2.map fun l => (p, l) })
  | .leak p, _, T, d => some ((), { T with leaked := p :: T.leaked }, d)
  | .scratchNew, .ok, T, d =>
      some (some d.nextScratch, T,
        { d with
          scratch := Function.update d.scratch t (d.nextScratch :: d.scratch t)
          nextScratch := d.nextScratch + 1 })
  | .scratchNew, .fail _ _, T, d => some (none, T, d)
  | .scratchSet _ _ _, .ok, T, d => some (.ok (), T, d)
  | .scratchSet _ _ _, .fail _ text, T, d => some (.error text, T, d)
  | .scratchDestroy c, _, T, d =>
      some ((), T, { d with scratch := Function.update d.scratch t ((d.scratch t).erase c) })
  | _, _, _, _ => none

/-- The elements below the count lie in the array's memory. -/
def CArray.InBounds {α : Type} (arrays : Heap Nat) (itemsize : Nat) (a : CArray α) : Prop :=
  a.items = [] ∨ ∃ p n, a.ptr = some p ∧ arrays.get p = some n ∧ a.items.length * itemsize ≤ n

/-- What a call of thread `t`, holding the lock as `h`, needs. -/
def Op.Valid (t : Nat) (h : Held) : Op → Tab → Flow → Prop
  | .loadKt, _, _ => h ≠ .none
  | .storeKt kt, T, _ => h = .wr ∧ kt.params.InBounds T.arrays paramSize ∧
      kt.topics.InBounds T.arrays topicSize ∧ kt.retired.InBounds T.arrays topicSize
  | .loadTopic p, T, _ => h ≠ .none ∧ T.topics.Live p
  | .storeTopic p _, T, _ => h = .wr ∧ T.topics.Live p
  | .loadTk p, T, _ => h ≠ .none ∧ T.producers.Live p
  | .storeTk p _, T, _ => h = .wr ∧ T.producers.Live p
  | .readStr s, T, _ => h ≠ .none ∧ T.strs.get s.ptr = some s.val
  | .strdup _, _, _ | .mallocTopic, _, _ | .mallocTk, _, _ | .rdKafkaConfNew, _, _ => h = .wr
  | .freeStr p, T, _ => h = .wr ∧ T.strs.Live p
  | .realloc old _, T, _ => h = .wr ∧ ∀ p, old = some p → T.arrays.Live p
  | .freeArray p, T, _ => h = .wr ∧ T.arrays.Live p
  -- the handle is gone, no message names the record, and its throttle was flushed if any did
  | .freeTopic p, T, d => h = .wr ∧ (∃ tt, T.topics.get p = some tt ∧ tt.rkt = none) ∧
      (∀ m ∈ d.inflight, m.msg.tt ≠ p) ∧ (p ∈ T.disposed ∨ ∀ m ∈ d.accepted, m.tt ≠ p)
  -- no poll thread is left that reads it
  | .freeTk p, T, _ => h = .wr ∧ T.producers.Live p ∧ ∀ thr, T.threads.get thr ≠ some p
  | .rdKafkaConfSet c _ _, T, _ | .rdKafkaConfSetDrMsgCb c, T, _
  | .rdKafkaConfDestroy c, T, _ | .rdKafkaNew c, T, _ => h = .wr ∧ T.confs.Live c
  -- every handle on it is destroyed, and the thread that polls it is joined
  | .rdKafkaDestroy rk, T, _ => h = .wr ∧ T.rks.Live rk ∧
      (∀ p kt, T.rkts.get p = some kt → kt.rk ≠ rk) ∧
      ∀ thr p tk, T.threads.get thr = some p → T.producers.get p = some tk → tk.rk ≠ some rk
  | .rdKafkaTopicNew rk _, T, _ => h = .wr ∧ T.rks.Live rk
  | .rdKafkaTopicDestroy p, T, _ => h = .wr ∧ T.rkts.Live p
  | .pthreadCreate tk, T, _ => h = .wr ∧ ∃ v rk, T.producers.get tk = some v ∧ v.rk = some rk ∧
      T.rks.Live rk
  | .pthreadJoin thr, T, _ => h = .wr ∧ T.threads.Live thr
  | .rdKafkaOutqLen rk, T, _ | .serveBegin rk, T, _ => h ≠ .none ∧ T.rks.Live rk
  | .serveEnd, _, _ => h ≠ .none
  | .rdKafkaProduce rkt _ _ tt, T, _ => h ≠ .none ∧ T.topics.Live tt ∧
      ∃ v, T.rkts.get rkt = some v ∧ T.rks.Live v.rk
  | .loadTransferred p, T, _ | .loadFailed p, T, _ => h ≠ .none ∧ T.topics.Live p
  | .flushSuppressed p, T, _ | .leak p, T, _ => h = .wr ∧ T.topics.Live p
  | .scratchNew, _, _ => True
  | .scratchSet c _ _, _, d | .scratchDestroy c, _, d => c ∈ d.scratch t
  | .undefined, _, _ => False

/-- The module's calls, as the machine runs them. -/
def iface : Iface Tab Flow Op Op.Res Ans Ev where
  act t o a T d := o.act t a T d
  env e T d := e.act T d
  valid t h o T d := o.Valid t h T d

/-- A program over the module's calls. -/
abbrev K := Conc.LProg Op Op.Res

/-- The call `o`. -/
abbrev call (o : Op) : K o.Res := Conc.LProg.op o

end TrigEmit
