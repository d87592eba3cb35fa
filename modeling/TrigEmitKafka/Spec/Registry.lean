import TrigEmitKafka.Source.Table
import Mathlib.Data.Finmap

/-!
# Spec — the registry as a machine of finite maps

What the table is for, with no array, no pointer and no lock.  The state is the producer, by its
broker list, a finite map from the parameters' names to their values, and a finite map from the
registered topics to their counters.

A call is one step of it (`Registry.step`), which depends on nothing but the state and the
arguments.  Delivery reports come between the steps (`Registry.Report`), each for a message that
was sent and has no report yet.  A history (`Registry.Entry`) shows both: the calls with what they
return, and the reports in the order they are counted, with the topic of each.
`kafka_topic_get_stats` reads the two counters one after the other, so reports may come between its
two reads.
-/

namespace TrigEmit

/-- The counters of a topic: the messages sent to it, and their reports. -/
structure Counters where
  sent : Nat
  transferred : Nat
  failed : Nat
  deriving DecidableEq

def Counters.zero : Counters := ⟨0, 0, 0⟩

/-- One report more. -/
def Counters.count (k : Counters) (ok : Bool) : Counters :=
  if ok then { k with transferred := k.transferred + 1 } else { k with failed := k.failed + 1 }

/-- A delivery report as it is counted: the topic it is of, where that is there, and whether it is
a success. -/
structure Delivery where
  topic : Option CStr
  ok : Bool
  deriving DecidableEq

/-- The state of the registry. -/
@[ext]
structure Registry where
  producer : Option CStr
  params : Finmap fun _ : CStr => CStr
  topics : Finmap fun _ : CStr => Counters

/-- The result of a function that fills `errbuf`. -/
def statusOf : Except String Unit → Int
  | .ok _    => 0
  | .error _ => -1

/-- The `int` or `bool` a call returns. -/
def TableCall.returned : (c : TableCall) → c.Ret → Int
  | .connected, r         => if r then 1 else 0
  | .validateParam _ _, r => statusOf r
  | .setParam _ _, r      => statusOf r
  | .connect _, r         => statusOf r
  | .getBrokers _, r      => r.1
  | .describeParams _, r  => r.1
  | .exists _, r          => if r then 1 else 0
  | .create _, r          => r
  | .send _ _, r          => r
  | .dismiss _, r         => r
  | .dismissAll, _        => 0
  | .unsetParam _, r      => r
  | .getStats _, _        => 0

namespace Registry

def empty : Registry := ⟨none, ∅, ∅⟩

/-! ### Calls -/

def setParam (A : Registry) : Option CStr → Option CStr → Registry × Int
  | some name, some value =>
      if zstr (some name) ∨ A.producer.isSome then (A, -1)
      else ({ A with params := A.params.insert name value }, 0)
  | _, _ => (A, -1)

def unsetParam (A : Registry) : Option CStr → Registry × Int
  | none      => (A, -1)
  | some name =>
      if name ∈ A.params ∧ A.producer = none then
        ({ A with params := A.params.erase name }, 0)
      else (A, -1)

def connect (A : Registry) : Option CStr → Registry × Int
  | none         => (A, -1)
  | some brokers =>
      if zstr (some brokers) ∨ A.producer.isSome then (A, -1)
      else ({ A with producer := some brokers }, 0)

/-- The counters of a topic that is there. -/
def find (A : Registry) (topic : Option CStr) : Option Counters :=
  topic.bind fun n => A.topics.lookup n

def create (A : Registry) : Option CStr → Registry × Int
  | none       => (A, -1)
  | some topic =>
      if topic ∈ A.topics then (A, 0)
      else if zstr (some topic) ∨ A.producer = none then (A, -1)
      else ({ A with topics := A.topics.insert topic .zero }, 0)

def send (A : Registry) (topic : Option CStr) (data : List UInt8) : Registry × Int :=
  match topic with
  | none   => (A, -1)
  | some n =>
      match A.topics.lookup n with
      | none   => (A, -1)
      | some k =>
          ({ A with topics := A.topics.insert n { k with sent := k.sent + 1 } }, cInt data.length)

def dismiss (A : Registry) : Option CStr → Registry × Int
  | none       => (A, -1)
  | some topic =>
      if topic ∈ A.topics then ({ A with topics := A.topics.erase topic }, 0) else (A, -1)

/-- The step a call is: the next state, and what is returned. -/
def step (A : Registry) : TableCall → Option (Registry × Int)
  | .connected                => some (A, if A.producer.isSome then 1 else 0)
  | .validateParam name value => some (A, if zstr name ∨ value = none then -1 else 0)
  | .setParam name value      => some (A.setParam name value)
  | .connect brokers          => some (A.connect brokers)
  | .getBrokers buflen        => some (A, if buflen = 0 ∨ A.producer = none then 0 else 1)
  | .describeParams buflen    => some (A, if buflen = 0 then 0 else cInt A.params.keys.card)
  | .exists topic             => some (A, if (A.find topic).isSome then 1 else 0)
  | .create topic             => some (A.create topic)
  | .send topic data          => some (A.send topic data)
  | .dismiss topic            => some (A.dismiss topic)
  | .dismissAll               => some ({ A with producer := none, topics := ∅ }, 0)
  | .unsetParam name          => some (A.unsetParam name)
  | .getStats _               => none

/-! ### Reports -/

/-- A report of a message with none so far: the topic it is of counts it.  One of a topic that is
not there any more counts nowhere. -/
inductive Report (A : Registry) : Delivery → Registry → Prop where
  | counted {n : CStr} {k : Counters} {ok : Bool} (hn : A.topics.lookup n = some k)
      (hlt : k.transferred + k.failed < k.sent) :
      Report A ⟨some n, ok⟩ { A with topics := A.topics.insert n (k.count ok) }
  | stray {ok : Bool} : Report A ⟨none, ok⟩ A

/-- Reports, one after another. -/
inductive Reports : Registry → List Delivery → Registry → Prop where
  | nil {A : Registry} : Reports A [] A
  | snoc {A A₁ A' : Registry} {xs : List Delivery} {x : Delivery} : Reports A xs A₁ →
      A₁.Report x A' → Reports A (xs ++ [x]) A'

theorem Reports.trans {A A₁ A' : Registry} {xs ys : List Delivery} (h : Reports A xs A₁)
    (h' : Reports A₁ ys A') : Reports A (xs ++ ys) A' := by
  induction h' with
  | nil => rwa [List.append_nil]
  | snoc _ hx ih =>
      rw [← List.append_assoc]
      exact .snoc ih hx

/-- A counter of a topic as it is read: 0 where there is no such topic. -/
def reading (A : Registry) (counter : Counters → Nat) (topic : Option CStr) : UInt32 :=
  UInt32.ofNat ((A.find topic).elim 0 counter)

/-! ### Runs -/

/-- A call, with what it returns, and the reports that come meanwhile. -/
inductive Does (A : Registry) : (c : TableCall) → c.Ret → List Delivery → Registry → Prop where
  | step {A₁ A₂ A' : Registry} {c : TableCall} {r : c.Ret} {before after : List Delivery}
      (hb : Reports A before A₁) (h : A₁.step c = some (A₂, c.returned r))
      (ha : Reports A₂ after A') : Does A c r (before ++ after) A'
  | getStats {A₁ A₂ A' : Registry} {topic : Option CStr} {r : UInt32 × UInt32}
      {before between after : List Delivery} (hb : Reports A before A₁)
      (hm : Reports A₁ between A₂)
      (h : r = (A₁.reading (·.transferred) topic, A₂.reading (·.failed) topic))
      (ha : Reports A₂ after A') : Does A (.getStats topic) r (before ++ (between ++ after)) A'

/-- What a history shows: a report counted between two calls, or a call with what it returned and
the reports counted meanwhile. -/
inductive Entry where
  | report (x : Delivery)
  | call (c : TableCall) (r : c.Ret) (meanwhile : List Delivery)

/-- The registry's runs from the empty one, by their histories. -/
inductive Runs : List Entry → Registry → Prop where
  | nil : Runs [] .empty
  | report {es : List Entry} {A A' : Registry} {x : Delivery} : Runs es A → A.Report x A' →
      Runs (es ++ [.report x]) A'
  | call {es : List Entry} {A A' : Registry} {c : TableCall} {r : c.Ret} {xs : List Delivery} :
      Runs es A → A.Does c r xs A' → Runs (es ++ [.call c r xs]) A'

end Registry

end TrigEmit
