import TrigEmitKafka.Rules.Calls

/-!
# Results — no use after free

`Machine` is the module with any sessions at work: each at its own call to the table, each call
one operation at a time under `ktlock`, and librdkafka and the poll thread moving in between.

* `memory_safe`: in every reachable state the records that messages in flight name are live, and
  so is every record and every producer that any thread is about to touch; in particular
  none is freed twice.
-/

namespace TrigEmit

open Conc (Cfg Held Label)
open Conc.Logic (Good good_init reach_good)
open Store (Heap)

/-! ### The machine -/

/-- A state of the module, with its sessions. -/
abbrev Machine := Cfg Tab Flow Op Op.Res TableCall TableCall.Ret

/-- Nothing was called yet. -/
def Machine.initial : Machine := Cfg.init Tab.init Flow.init

/-- A state some run comes to. -/
abbrev Machine.Reachable (s : Machine) : Prop := Cfg.Reach iface tableProg Machine.initial s

theorem Machine.good_initial : Good sharing Machine.initial :=
  good_init inv_init ⟨World.init, World.ok_init, World.is_init⟩ fun _ =>
    ⟨⟨fun _ => True, [], [], []⟩, rfl, rfl⟩

theorem Machine.Reachable.good {s : Machine} (h : s.Reachable) : Good sharing s :=
  reach_good Machine.good_initial h

theorem Machine.Reachable.inv {s : Machine} (h : s.Reachable) : Inv s.sh s.fr := h.good.inv

/-- Whenever nobody writes, the table is a well-formed world. -/
theorem Machine.Reachable.world {s : Machine} (h : s.Reachable) (hn : s.lock.NoWriter) :
    ∃ W : World, W.Ok ∧ s.sh.Is W.cells := h.good.tab hn

/-! ### What a call touches -/

/-- The record a call reads, writes, frees, or hands to librdkafka. -/
def Op.record : Op → Option Nat
  | .loadTopic p | .storeTopic p _ | .freeTopic p | .rdKafkaProduce _ _ _ p => some p
  | .loadTransferred p | .loadFailed p | .flushSuppressed p | .leak p       => some p
  | _ => none

/-- The producer a call reads, writes, frees, or hands to its poll thread. -/
def Op.producer : Op → Option Nat
  | .loadTk p | .storeTk p _ | .freeTk p | .pthreadCreate p => some p
  | _ => none

theorem Op.Valid.record {t : Nat} {h : Held} {o : Op} {T : Tab} {d : Flow}
    (hv : o.Valid t h T d) {p : Nat} (hp : o.record = some p) : T.topics.Live p := by
  cases o <;> simp only [Op.record, reduceCtorEq, Option.some.injEq] at hp <;> subst hp
  case freeTopic =>
    obtain ⟨-, ⟨tt, htt, -⟩, -⟩ := hv
    exact Heap.live_of_get htt
  case rdKafkaProduce => exact hv.2.1
  all_goals exact hv.2

theorem Op.Valid.producer {t : Nat} {h : Held} {o : Op} {T : Tab} {d : Flow}
    (hv : o.Valid t h T d) {p : Nat} (hp : o.producer = some p) : T.producers.Live p := by
  cases o <;> simp only [Op.producer, reduceCtorEq, Option.some.injEq] at hp <;> subst hp
  case freeTk => exact hv.2.1
  case pthreadCreate =>
    obtain ⟨-, v, rk, hg, -⟩ := hv
    exact Heap.live_of_get hg
  all_goals exact hv.2

/-- The record a step of the environment touches: the one of the report that is counted. -/
def Ev.record (d : Flow) : Ev → Option Nat
  | .cbCount i _ => (d.inflight[i]?).map fun q => q.msg.tt
  | _            => none

/-! ### Safety -/

/-- No thread is about to touch freed memory. -/
structure MemorySafe (s : Machine) : Prop where
  /-- Every message librdkafka holds carries a live record. -/
  named : ∀ q ∈ s.fr.inflight, s.sh.topics.Live q.msg.tt
  /-- `dr_msg_cb` runs on a live record. -/
  callback : ∀ (e : Ev) p, e.record s.fr = some p → s.sh.topics.Live p
  /-- What a session's next call touches is live, and the call is defined behaviour. -/
  calls : ∀ t c (o : Op) k, s.thr t = some ⟨c, .call (.op o) k⟩ →
    o.Valid t (s.lock.held t) s.sh s.fr ∧ (∀ p, o.record = some p → s.sh.topics.Live p) ∧
      ∀ p, o.producer = some p → s.sh.producers.Live p
  /-- What the poll thread reads is live. -/
  polls : ∀ thr, s.fr.phase thr ≠ .exited → ∃ tk v rk, s.sh.threads.get thr = some tk ∧
    s.sh.producers.get tk = some v ∧ v.rk = some rk ∧ s.sh.rks.Live rk

/-- **No use after free.** -/
theorem memory_safe {s : Machine} (h : s.Reachable) : MemorySafe s where
  named := h.inv.named
  callback e p hp := by
    cases e with
    | cbCount i now =>
        obtain ⟨q, hq, rfl⟩ := Option.map_eq_some_iff.mp hp
        exact h.inv.named q (List.mem_of_getElem? hq)
    | cbEnter i u err => cases hp
    | cbReturn i => cases hp
    | pollCheck thr => cases hp
    | pollReturn thr => cases hp
  calls t c o k ht := by
    have hv : o.Valid t (s.lock.held t) s.sh s.fr := h.good.valid ht
    exact ⟨hv, fun p hp => hv.record hp, fun p hp => hv.producer hp⟩
  polls thr hthr := by
    obtain ⟨tk, htk⟩ := Option.isSome_iff_exists.mp (h.inv.alive thr hthr)
    obtain ⟨v, rk, hv, hrk, hl⟩ := h.inv.polls thr tk htk
    exact ⟨tk, v, rk, htk, hv, hrk, hl⟩

/-! ### A run -/

/-- A call of session `t` that takes `n` steps, nothing failing. -/
def calling (t : Nat) (c : TableCall) (n : Nat) : List (Label Ans Ev TableCall) :=
  .start t c :: List.replicate n (.step t .ok) ++ [.finish t]

/-- A topic is dismissed while the report of a message to it is on its way. -/
def lateReport : List (Label Ans Ev TableCall) :=
  calling 0 (.connect (some (.lit "b"))) 20 ++ calling 0 (.create (some (.lit "t"))) 15 ++
    calling 1 (.send (some (.lit "t")) [1]) 11 ++ [.env (.cbEnter 0 (.poll 0) noError)] ++
    calling 2 (.dismiss (some (.lit "t"))) 22

/-- Its record is parked, and safe. -/
theorem lateReport_safe : ∃ s : Machine,
    Cfg.run iface tableProg lateReport Machine.initial = some s ∧
      s.sh.kt.topics.items = [] ∧ s.sh.kt.retired.items = [0] ∧ s.fr.inflight.length = 1 ∧
      MemorySafe s := by
  have hrun : (Cfg.run iface tableProg lateReport Machine.initial).map (fun s =>
      (s.sh.kt.topics.items, s.sh.kt.retired.items, s.fr.inflight.length)) = some ([], [0], 1) := by
    decide +kernel
  obtain ⟨s, hs, he⟩ := Option.map_eq_some_iff.mp hrun
  simp only [Prod.mk.injEq] at he
  exact ⟨s, hs, he.1, he.2.1, he.2.2, memory_safe (Cfg.reach_of_run hs)⟩

end TrigEmit
