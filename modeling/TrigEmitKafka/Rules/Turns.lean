import TrigEmitKafka.Rules.Calls
import TrigEmitKafka.Source.Commands
import TrigEmitKafka.Support.Progress

/-!
# Rules — the table from call to call

`Tab.seen` is what can be observed of the table between two critical sections, read off the guarded
state itself.  `Runs` is the module at the granularity of `ktlock`: the calls of any sessions in
any order, each run from start to end, with librdkafka and the poll thread at work meanwhile.
`TableState` is one state such a run passes, whatever run it is.
-/

namespace TrigEmit

open Conc (exec)
open Conc.Logic (Allowed alone allowed_any exec_ends)
open Slots (toMap)
open Store (Heap)

/-! ### What can be seen -/

/-- What can be observed: whether there is a producer and its broker list, the parameters in
order, and the registered topics in order with their records. -/
structure Seen where
  connected : Bool
  brokers : Option CStr
  params : List (CStr × CStr)
  topics : List (Nat × Option TekTopic)
  deriving DecidableEq

def Tab.seen (T : Tab) : Seen where
  connected := T.kt.producer.isSome
  brokers := (T.kt.producer.bind T.producers.get).bind fun v => v.brokers.map (·.val)
  params := T.kt.params.items.map (·.pair)
  topics := T.kt.topics.items.map fun p => (p, T.topics.get p)

/-- The record of a registered topic. -/
def Obs.record (o : Obs) (r : Reg) : Nat × Option TekTopic :=
  (r.tt, some ⟨some r.name, some r.rkt, o.producer.map (·.tk)⟩)

/-- What can be seen of a world. -/
def Obs.seen (o : Obs) : Seen where
  connected := o.producer.isSome
  brokers := o.producer.map (·.brokers.val)
  params := o.params
  topics := o.topics.map o.record

/-- What can be seen is what can be observed of the world. -/
theorem Tab.Is.seen {T : Tab} {W : World} (h : T.Is W.cells) : T.seen = W.obs.seen := by
  have hkt : T.kt = W.kt := h.kt
  rcases Option.eq_none_or_eq_some W.conn with hc | ⟨conn, hc⟩
  · simp [Tab.seen, Obs.seen, World.obs, World.regs, hkt, World.kt, hc, CArray.null]
    exact fun _ _ => rfl
  · have hprod := h.producers.get (World.producer_mem hc)
    have htop : (conn.topics.items.map fun r => (r.tt, T.topics.get r.tt)) =
        conn.topics.items.map W.obs.record := List.map_congr_left fun r hr => by
      have hrec : T.topics.get r.tt = _ := h.topics.get (World.reg_mem hc hr)
      rw [hrec]
      simp [Obs.record, World.obs, hc]
    simp only [Tab.seen, hkt, World.kt_topics, World.regs_conn hc, List.map_map, Function.comp_def,
      htop]
    simp only [World.kt, hc, Option.map, Option.isSome, Option.bind] at hprod ⊢
    rw [hprod]
    simp [Obs.seen, World.obs, hc, World.regs_conn hc]
    exact fun _ _ => rfl

/-- The name of a registered topic. -/
def entryName (e : Nat × Option TekTopic) : CStr :=
  ((e.2.bind (·.name)).map (·.val)).getD .empty

/-- The record registered for the topic `n`. -/
def Tab.record (T : Tab) (n : CStr) : Option Nat :=
  toMap (T.seen.topics.map fun e => (entryName e, e.1)) n

theorem Tab.Is.record {T : Tab} {W : World} (h : T.Is W.cells) (n : CStr) :
    T.record n = toMap (W.regs.map fun r => (r.name.val, r.tt)) n := by
  rw [Tab.record, h.seen]
  show toMap ((W.regs.map W.obs.record).map fun e => (entryName e, e.1)) n = _
  rw [List.map_map]
  rfl

/-- It is the one a search for the name finds. -/
theorem Tab.Is.record_findTopic {T : Tab} {W : World} (h : T.Is W.cells) (n : CStr) :
    T.record n = (W.findTopic n).map fun x => x.2.tt := by
  rw [h.record, Slots.toMap_map _ _ _ _ 0]
  rfl

/-! ### Runs -/

/-- A finished call. -/
structure Finished where
  t : Nat
  c : TableCall
  r : c.Ret

/-- Calls one after another, with steps of the environment in between, from outside answers of the
kind `allows`. -/
inductive Runs (allows : Ans → Prop) (T : Tab) (d : Flow) : List Finished → Tab → Flow → Prop where
  | nil : Runs allows T d [] T d
  | call {hs : List Finished} {T₁ T₂ : Tab} {d₁ d₂ : Flow} {t : Nat} {c : TableCall} {r : c.Ret}
      (course : Course) : Runs allows T d hs T₁ d₁ → Allowed allows course →
      exec iface t (tableProg c) course T₁ d₁ = some (r, T₂, d₂) →
      Runs allows T d (hs ++ [⟨t, c, r⟩]) T₂ d₂
  | env {hs : List Finished} {T₁ : Tab} {d₁ d₂ : Flow} (e : Ev) : Runs allows T d hs T₁ d₁ →
      e.act T₁ d₁ = some d₂ → Runs allows T d hs T₁ d₂

variable {allows : Ans → Prop} {T T' : Tab} {d d' : Flow} {hs : List Finished}

/-- A run keeps the invariant and leaves a well-formed world. -/
theorem Runs.world (h : Runs allows T d hs T' d') (hi : Inv T d) (hT : TableInv T) :
    Inv T' d' ∧ TableInv T' := by
  induction h with
  | nil => exact ⟨hi, hT⟩
  | call course _ hok he ih =>
      obtain ⟨hi₁, W, hW, hT₁⟩ := ih
      obtain ⟨hi₂, W', b', hT₂, hW', -⟩ := exec_effect hi₁ hT₁ hW hok he
      exact ⟨hi₂, W', hW', hT₂⟩
  | env e _ he ih => exact ⟨ih.1.env he, ih.2⟩

/-- A run from the state the module is loaded in. -/
abbrev FromLoad (allows : Ans → Prop) (hs : List Finished) (T : Tab) (d : Flow) : Prop :=
  Runs allows Tab.init Flow.init hs T d

theorem FromLoad.world (h : FromLoad allows hs T d) : Inv T d ∧ TableInv T :=
  Runs.world h inv_init ⟨World.init, World.ok_init, World.is_init⟩

theorem Runs.trans {hs' : List Finished} {T₁ : Tab} {d₁ : Flow} (h : Runs allows T d hs T₁ d₁)
    (h' : Runs allows T₁ d₁ hs' T' d') : Runs allows T d (hs ++ hs') T' d' := by
  induction h' with
  | nil => rwa [List.append_nil]
  | call course _ hok he ih =>
      rw [← List.append_assoc]
      exact .call course ih hok he
  | env e _ he ih => exact .env e ih he

/-- The calls of a list, one after another at the courses given. -/
def replay : List (Nat × TableCall × Course) → Tab → Flow → Option (List Finished × Tab × Flow)
  | [],                     T, d => some ([], T, d)
  | (t, c, course) :: rest, T, d =>
      (exec iface t (tableProg c) course T d).bind fun x =>
        (replay rest x.2.1 x.2.2).map fun y => (⟨t, c, x.1⟩ :: y.1, y.2)

/-- They are a run. -/
theorem runs_of_replay {calls : List (Nat × TableCall × Course)}
    (hok : ∀ x ∈ calls, Allowed allows x.2.2) (h : replay calls T d = some (hs, T', d')) :
    Runs allows T d hs T' d' := by
  induction calls generalizing T d hs with
  | nil => cases h; exact .nil
  | cons x calls ih =>
      obtain ⟨hx, hrest⟩ := List.forall_mem_cons.mp hok
      obtain ⟨t, c, course⟩ := x
      obtain ⟨⟨r, T₁, d₁⟩, he, h⟩ := Option.bind_eq_some_iff.mp h
      obtain ⟨⟨hs', T₂, d₂⟩, hrun, e⟩ := Option.map_eq_some_iff.mp h
      cases e
      exact (Runs.nil.call course hx he).trans (ih hrest hrun)

/-! ### One state -/

/-- A table state between two critical sections. -/
structure TableState where
  sh : Tab
  fr : Flow
  inv : Inv sh fr
  world : TableInv sh

/-- What a run comes to. -/
def FromLoad.state (h : FromLoad allows hs T d) : TableState := ⟨T, d, h.world.1, h.world.2⟩

/-- What can be observed of it. -/
abbrev TableState.seen (s : TableState) : Seen := s.sh.seen

/-! ### Functions that do not wait -/

/-- The operation neither waits for another thread nor asks librdkafka to take a message. -/
def Op.Quick : Op → Prop
  | .rdKafkaProduce _ _ _ _ | .rdKafkaDestroy _ | .pthreadJoin _ => False
  | _ => True

/-- It always has an outcome: what may fail can fail. -/
theorem Op.Quick.ready {t : Nat} {h : Conc.Held} {o : Op} {T : Tab} {d : Flow} (ho : o.Quick)
    (hv : o.Valid t h T d) : (o.act t (.fail 0 "") T d).isSome := by
  cases o with
  | rdKafkaProduce rkt payload key tt => exact ho.elim
  | rdKafkaDestroy rk => exact ho.elim
  | pthreadJoin thr => exact ho.elim
  | undefined => exact hv.elim
  | loadTopic p => exact (Option.isSome_map ..).trans hv.2
  | loadTk p => exact (Option.isSome_map ..).trans hv.2
  | rdKafkaConfSetDrMsgCb p => exact (Option.isSome_map ..).trans hv.2
  | rdKafkaNew p => exact (Option.isSome_map ..).trans hv.2
  | _ => rfl

/-- It also starts no thread and touches no record's throttle. -/
def Op.Mild : Op → Prop
  | .pthreadCreate _ | .flushSuppressed _ => False
  | o                                     => o.Quick

theorem Op.Mild.quick {o : Op} (ho : o.Mild) : o.Quick := by
  cases o <;> first | exact ho | exact ho.elim

theorem straight_quick {α : Type} {p : K α} (h : p.Straight Op.Mild) : p.Straight Op.Quick :=
  h.mono fun _ => Op.Mild.quick

theorem straight_reading {α : Type} {body : K α} {P : Op → Prop} (h : body.Straight P) :
    (reading body).Straight P :=
  ⟨trivial, fun _ => h.bind fun _ => ⟨trivial, fun _ => trivial⟩⟩

theorem straight_writing {α : Type} {body : K α} {P : Op → Prop} (h : body.Straight P) :
    (writing body).Straight P :=
  ⟨trivial, fun _ => h.bind fun _ => ⟨trivial, fun _ => trivial⟩⟩

/-- A function that does not wait returns. -/
theorem TableState.returns (s : TableState) (t : Nat) {c : TableCall}
    (hc : (tableProg c).Straight Op.Quick) :
    ∃ course r T d, exec iface t (tableProg c) course s.sh s.fr = some (r, T, d) := by
  obtain ⟨W, hW, hT⟩ := s.world
  have hsafe : logic.Safe (alone fun _ => True) (tableProg c) ⟨.none, s.sh, View.of t s.sh s.fr⟩ _ :=
    tableProg_alone c (At.of t .none hT) hW
  obtain ⟨course, ⟨r, T, d⟩, -, he⟩ := exec_ends (L := logic) (b := View.of t s.sh s.fr)
    (a := .fail 0 "") trivial (fun ho hv => ho.ready hv) s.inv (Eq.refl (s.fr.scratch t))
    (View.sees_of t s.inv) (fun _ _ ⟨_, _, hm, _⟩ => hm.held) hsafe hc
  exact ⟨course, r, T, d, he⟩

/-- What a call leaves is a table state. -/
theorem TableState.call (s : TableState) {t : Nat} {c : TableCall} {course : Course} {r : c.Ret}
    {T : Tab} {d : Flow} (he : exec iface t (tableProg c) course s.sh s.fr = some (r, T, d)) :
    ∃ s' : TableState, s'.sh = T ∧ s'.fr = d := by
  obtain ⟨W, hW, hT⟩ := s.world
  obtain ⟨hi, W', b', hT', hW', -⟩ := exec_effect s.inv hT hW (allowed_any course) he
  exact ⟨⟨T, d, hi, W', hW', hT'⟩, rfl, rfl⟩

end TrigEmit
