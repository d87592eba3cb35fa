import TrigEmitKafka.Spec.Registry
import TrigEmitKafka.Support.Atomicity

/-!
# Spec — the registry under concurrent calls

The calls of any number of sessions, as atomic moves of the registry: each call is one step of it,
at some moment between the call and its return, but for `kafka_topic_get_stats`, which reads the
two counters in two moves.  Where something outside may fail, a call that may have asked for it may
fail as well, and leave the registry as it was.

Beside the registry stand the record of each topic, and all that was ever sent through it
(`Spool`): a call adds the message that its result says it has sent, and nothing else does.  A
topic that is there keeps its record, and a new one has a record of its own, so that a report,
which names a record only, is of one topic or of none.
-/

namespace TrigEmit

open Conc (Object)

/-- How far a call has come: it has yet to take its step, or has read one counter, or has its
result. -/
inductive Progress (c : TableCall) where
  | todo
  | read (transferred : UInt32)
  | done (r : c.Ret)

/-- The call fails if something outside does. -/
def TableCall.Fallible : TableCall → Prop
  | .validateParam _ _ | .setParam _ _ | .connect _ | .create _ | .send _ _ => True
  | _                                                                       => False

/-- A message as it was sent: the topic's record and name, and the payload. -/
structure Post where
  record : Option Nat
  topic : CStr
  payload : List UInt8

/-- The registry, the record of each topic that is there, and the messages sent through it, oldest
first. -/
structure Spool where
  registry : Registry
  records : CStr → Option Nat
  sent : List Post

namespace Spool

def empty : Spool := ⟨.empty, fun _ => none, []⟩

/-- The message a call has sent that returned `r`. -/
def posted (S : Spool) : (c : TableCall) → c.Ret → List Post
  | .send (some n) data, r => if 0 ≤ r then [⟨S.records n, n, data⟩] else []
  | _, _                   => []

/-- The records once a call took its step: a topic that stays keeps its own, and a new one has a
record that no topic and no message had. -/
structure Keeps (S S' : Spool) : Prop where
  domain : ∀ n, (S'.records n).isSome ↔ n ∈ S'.registry.topics
  kept : ∀ n p, S.records n = some p → n ∈ S'.registry.topics → S'.records n = some p
  fresh : ∀ n p, S.records n = none → S'.records n = some p →
    (∀ n', S.records n' ≠ some p) ∧ ∀ x ∈ S.sent, x.record ≠ some p

/-- An atomic move of a call, where `F` says that something outside may fail. -/
inductive Move (F : Prop) : {c : TableCall} → Spool → Progress c → Spool → Progress c → Prop where
  | step {S S' : Spool} {c : TableCall} {r : c.Ret}
      (h : S.registry.step c = some (S'.registry, c.returned r))
      (hs : S'.sent = S.sent ++ S.posted c r) (hr : S.Keeps S') : Move F S .todo S' (.done r)
  | fails {S : Spool} {c : TableCall} {r : c.Ret} (hF : F) (hc : c.Fallible)
      (hr : c.returned r = -1) : Move F S .todo S (.done r)
  | transferred {S : Spool} {topic : Option CStr} :
      Move F (c := .getStats topic) S .todo S (.read (S.registry.reading (·.transferred) topic))
  | failed {S : Spool} {topic : Option CStr} {n : UInt32} :
      Move F (c := .getStats topic) S (.read n) S (.done (n, S.registry.reading (·.failed) topic))

/-- A report of a message with the record `p`, of a success or of a failure: the topic of that
record counts it, if it is still there. -/
inductive Report (S : Spool) : Nat × Bool → Spool → Prop where
  | counted {n : CStr} {p : Nat} {ok : Bool} {A : Registry} (hn : S.records n = some p)
      (h : S.registry.Report ⟨some n, ok⟩ A) : Report S (p, ok) { S with registry := A }
  | stray {p : Nat} {ok : Bool} (hn : ∀ n, S.records n ≠ some p)
      (hp : ∃ x ∈ S.sent, x.record = some p) : Report S (p, ok) S

/-- The registry under concurrent calls; what shows of librdkafka is the reports, as they are
counted. -/
def object (F : Prop) : Object TableCall TableCall.Ret (Nat × Bool) where
  State := Spool
  Local := Progress
  start _ := .todo
  move := Move F
  ends x r := x = .done r
  env o S S' := S.Report o S'

end Spool

end TrigEmit
