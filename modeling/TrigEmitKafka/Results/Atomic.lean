import TrigEmitKafka.Results.Registry
import TrigEmitKafka.Rules.Feeding
import TrigEmitKafka.Rules.Writers
import TrigEmitKafka.Spec.Atomic
import TrigEmitKafka.Support.Progress

/-!
# Results — concurrent calls are atomic

The table's functions, one operation at a time and with any number of sessions at work, are the
atomic moves of the registry.

* `linearizable`: the calls, the returns and the reports counted in every run of the machine are
  those of a run of the registry's object, which comes to the registry of the state reached.
-/

namespace TrigEmit

open Conc (Abstraction Atomic Cfg Goes Held LProg Label Logic Mode Prog Setting)
open Conc.Logic (Safe alone unbroken)

variable {allows : Ans → Prop} {F : Prop} {W W' : World} {b b' : View} {c : TableCall}

/-- Something outside may fail. -/
def Fails (allows : Ans → Prop) : Prop := ∃ err text, allows (.fail err text)

/-! ### An effect is moves -/

/-- A call that may fail did so because something failed outside, or would have done the same. -/
theorem Effect.certain {r : c.Ret} (he : Effect F c W b r W' b') :
    Effect False c W b r W' b' ∨
      F ∧ c.Fallible ∧ c.returned r = -1 ∧ W'.obs = W.obs ∧ b'.acc = b.acc := by
  cases c with
  | connected => exact Or.inl he
  | getBrokers buflen => exact Or.inl he
  | describeParams buflen => exact Or.inl he
  | «exists» topic => exact Or.inl he
  | dismiss topic => exact Or.inl he
  | dismissAll => exact Or.inl he
  | unsetParam name => exact Or.inl he
  | getStats topic => exact Or.inl he
  | validateParam name value =>
      obtain ⟨rfl, rfl, hok, hno⟩ := he
      cases r with
      | ok u => exact Or.inl ⟨rfl, rfl, hok, fun e => absurd rfl e⟩
      | error text =>
          rcases hno (by simp) with h | h | h
          · exact Or.inl ⟨rfl, rfl, hok, fun _ => Or.inl h⟩
          · exact Or.inl ⟨rfl, rfl, hok, fun _ => Or.inr (Or.inl h)⟩
          · exact Or.inr ⟨h, trivial, rfl, rfl, rfl⟩
  | setParam name value =>
      obtain ⟨hb, hok, hno⟩ := he
      cases r with
      | ok u => exact Or.inl ⟨hb, hok, fun e => absurd rfl e⟩
      | error text =>
          obtain ⟨ho, h | h | h | h⟩ := hno (by simp)
          · exact Or.inl ⟨hb, hok, fun _ => ⟨ho, Or.inl h⟩⟩
          · exact Or.inl ⟨hb, hok, fun _ => ⟨ho, Or.inr (Or.inl h)⟩⟩
          · exact Or.inl ⟨hb, hok, fun _ => ⟨ho, Or.inr (Or.inr (Or.inl h))⟩⟩
          · exact Or.inr ⟨h, trivial, rfl, ho.obs, hb.acc⟩
  | connect brokers =>
      obtain ⟨hb, hok, hno, hhanded⟩ := he
      cases r with
      | ok u => exact Or.inl ⟨hb, hok, fun e => absurd rfl e, hhanded⟩
      | error text =>
          obtain ⟨ho, h | h | h⟩ := hno (by simp)
          · exact Or.inl ⟨hb, hok, fun _ => ⟨ho, Or.inl h⟩, hhanded⟩
          · exact Or.inl ⟨hb, hok, fun _ => ⟨ho, Or.inr (Or.inl h)⟩, hhanded⟩
          · exact Or.inr ⟨h, trivial, rfl, ho.obs, hb.acc⟩
  | create topic =>
      obtain ⟨hb, hcr, hwhy⟩ := he
      by_cases hr : r = 0
      · exact Or.inl ⟨hb, hcr, fun e => absurd hr e⟩
      · rcases hwhy hr with h | h
        · exact Or.inr ⟨h, trivial, (hcr.fail hr).1, (hcr.fail hr).2.1.obs, hb.acc⟩
        · exact Or.inl ⟨hb, hcr, fun _ => Or.inr h⟩
  | send topic data =>
      obtain ⟨rfl, h | ⟨hr, rfl, h | h⟩⟩ := he
      · exact Or.inl ⟨rfl, Or.inl h⟩
      · exact Or.inl ⟨rfl, Or.inr ⟨hr, rfl, Or.inl h⟩⟩
      · exact Or.inr ⟨h, trivial, hr, rfl, rfl⟩

/-- The call sends no message and reads no counter. -/
def TableCall.Plain : TableCall → Prop
  | .send _ _   => False
  | .getStats _ => False
  | _           => True

theorem TableCall.Plain.posted (hc : c.Plain) (S : Spool) (r : c.Ret) : S.posted c r = [] := by
  cases c <;> first | rfl | exact hc.elim

/-- What a call does when nothing fails is its step. -/
theorem Effect.steps {r : c.Ret} {served : List Served} (he : Effect False c W b r W' b')
    (hc : c.Plain) (hW : W.Ok)
    (hle : ∀ p, successes p served + failures p served ≤ sentWith p b.acc) :
    (W.obs.registry b.acc served).step c = some (W'.obs.registry b'.acc served, c.returned r) := by
  cases c with
  | connected =>
      obtain ⟨rfl, rfl, rfl⟩ := he
      simp [Registry.step, TableCall.returned, Obs.registry]
  | validateParam name value =>
      rw [he.2.1]
      exact he.step_validateParam id
  | setParam name value => rw [he.1.acc]; exact he.step_setParam id
  | connect brokers => rw [he.1.acc]; exact he.step_connect id
  | getBrokers buflen => rw [he.2.1]; exact he.step_getBrokers
  | describeParams buflen => rw [he.2.1]; exact he.step_describeParams hW
  | «exists» topic =>
      obtain ⟨rfl, rfl, rfl⟩ := he
      rw [Registry.step, World.find_registry, Option.isSome_map]
      rfl
  | create topic => rw [he.1.acc]; exact he.step_create id hle
  | send topic data => exact hc.elim
  | dismiss topic => rw [he.1.acc]; exact he.step_dismiss hW
  | dismissAll =>
      rw [he.1.acc, he.2.1]
      rfl
  | unsetParam name => rw [he.1.acc]; exact he.step_unsetParam hW
  | getStats topic => exact hc.elim

/-! ### The names of the records -/

/-- What was posted with a message: its record, the name the record has, and the payload. -/
def Message.posted (names : Nat → CStr) (m : Message) : Post := ⟨some m.tt, names m.tt, m.payload⟩

/-- The records of the registered topics have these names. -/
def World.Names (W : World) (names : Nat → CStr) : Prop := ∀ r ∈ W.regs, names r.tt = r.name.val

/-- A topic registered afterwards was so before, or no message names its record and the others are
still there. -/
theorem Effect.regs {r : c.Ret} (he : Effect F c W b r W' b') {reg : Reg} (hreg : reg ∈ W'.regs) :
    reg ∈ W.regs ∨ (∀ m ∈ b.acc, m.tt ≠ reg.tt) ∧ ∀ x ∈ W.regs, x ∈ W'.regs := by
  have hobs : W'.obs.topics = W.obs.topics → reg ∈ W.regs := by
    intro e
    change reg ∈ W.obs.topics
    rw [← e]
    exact hreg
  cases c with
  | connected => exact Or.inl (he.1 ▸ hreg)
  | validateParam name value => exact Or.inl (he.1 ▸ hreg)
  | getBrokers buflen => exact Or.inl (he.1 ▸ hreg)
  | describeParams buflen => exact Or.inl (he.1 ▸ hreg)
  | «exists» topic => exact Or.inl (he.1 ▸ hreg)
  | send topic data => exact Or.inl (he.1 ▸ hreg)
  | getStats topic => exact Or.inl (he.1 ▸ hreg)
  | dismissAll =>
      have hnone : reg ∈ W'.obs.topics := hreg
      rw [he.2.1] at hnone
      cases hnone
  | setParam name value =>
      by_cases hr : r = .ok ()
      · obtain ⟨n, v, -, -, -, hset⟩ := he.2.1 hr
        exact Or.inl (hobs (by rw [(hset.ok hr).2]))
      · exact Or.inl (hobs (by rw [(he.2.2 hr).1.obs]))
  | connect brokers =>
      by_cases hr : r = .ok ()
      · obtain ⟨bs, -, -, hconn⟩ := he.2.1 hr
        obtain ⟨-, -, p, -, -, ho⟩ := hconn.ok hr
        exact Or.inl (hobs (by rw [ho]))
      · exact Or.inl (hobs (by rw [(he.2.2.1 hr).1.obs]))
  | create topic =>
      by_cases hr : r = 0
      · obtain ⟨n, -, ⟨-, ho⟩ | ⟨-, -, -, new, -, hnew, ho⟩⟩ := he.2.1.ok hr
        · exact Or.inl (hobs (by rw [ho]))
        · have hmem : reg ∈ W'.obs.topics := hreg
          rw [ho] at hmem
          rcases List.mem_append.mp hmem with hold | hadded
          · exact Or.inl hold
          · obtain rfl := List.mem_singleton.mp hadded
            refine Or.inr ⟨hnew, fun x hx => ?_⟩
            change x ∈ W'.obs.topics
            rw [ho]
            exact List.mem_append_left _ hx
      · exact Or.inl (hobs (by rw [(he.2.1.fail hr).2.1.obs]))
  | dismiss topic =>
      obtain ⟨-, ⟨n, rfl, -, hd⟩ | ⟨-, -, rfl⟩⟩ := he
      · by_cases hr : r = 0
        · obtain ⟨i, old, hf, ho⟩ := hd.ok hr
          have hmem : reg ∈ W'.obs.topics := hreg
          rw [ho] at hmem
          obtain ⟨hlt, -⟩ := List.getElem?_eq_some_iff.mp (World.findTopic_some hf).1
          exact Or.inl (Slots.mem_of_mem_swapRemove hlt hmem)
        · exact Or.inl (hobs (by rw [(hd.fail hr).2.1.obs]))
      · exact Or.inl hreg
  | unsetParam name =>
      obtain ⟨-, ⟨n, -, -, hu⟩ | ⟨-, -, rfl⟩⟩ := he
      · by_cases hr : r = 0
        · obtain ⟨-, i, x, -, ho⟩ := hu.ok hr
          exact Or.inl (hobs (by rw [ho]))
        · exact Or.inl (hobs (by rw [(hu.fail hr).2.1.obs]))
      · exact Or.inl hreg

/-- A world that comes next has names, which leave the messages what they say. -/
theorem Effect.names {r : c.Ret} {names : Nat → CStr} (he : Effect F c W b r W' b')
    (hd : W'.Distinct) (hn : W.Names names) :
    ∃ names', W'.Names names' ∧ b.acc.map (Message.posted names') =
      b.acc.map (Message.posted names) := by
  refine ⟨fun p => ((W'.regs.find? fun r => r.tt = p).map fun r => r.name.val).getD (names p),
    fun reg hreg => ?_, List.map_congr_left fun m hm => ?_⟩
  · cases hf : W'.regs.find? fun r => r.tt = reg.tt with
    | none => simpa using List.find?_eq_none.mp hf reg hreg
    | some old =>
        have htt : old.tt = reg.tt := by simpa using List.find?_some hf
        simpa [hf] using hd _ (List.mem_of_find?_eq_some hf) _ hreg htt
  · refine congrArg (fun n => Post.mk (some m.tt) n m.payload) ?_
    cases hf : W'.regs.find? fun r => r.tt = m.tt with
    | none => simp [hf]
    | some old =>
        have htt : old.tt = m.tt := by simpa using List.find?_some hf
        rcases he.regs (List.mem_of_find?_eq_some hf) with hold | hnew
        · have hname : old.name.val = names m.tt := by rw [← htt, hn old hold]
          simpa [Message.posted, hf] using hname
        · exact absurd htt.symm (hnew.1 m hm)

/-- The record of the topic of the name. -/
def World.records (W : World) (n : CStr) : Option Nat := (W.findTopic n).map fun x => x.2.tt

theorem World.records_obs (h : W'.obs = W.obs) : W'.records = W.records := by
  have hregs : W'.regs = W.regs := congrArg Obs.topics h
  funext n
  rw [World.records, World.records, World.findTopic, World.findTopic, hregs]

/-- A topic has a record while it is there. -/
theorem World.isSome_records {acc : List Message} {served : List Served} (W : World) (n : CStr) :
    (W.records n).isSome ↔ n ∈ (W.obs.registry acc served).topics := by
  rw [World.mem_registry, World.records, Option.isSome_map]

theorem World.records_some {n : CStr} {p : Nat} (h : W.records n = some p) :
    ∃ r ∈ W.regs, r.name.val = n ∧ r.tt = p := by
  obtain ⟨x, hx, rfl⟩ := Option.map_eq_some_iff.mp h
  obtain ⟨hi, hn⟩ := World.findTopic_some (i := x.1) (r := x.2) hx
  exact ⟨x.2, List.mem_of_getElem? hi, hn, rfl⟩

/-- The record of a registered topic. -/
theorem World.Ok.records_mem (hW : W.Ok) {r : Reg} (hr : r ∈ W.regs) :
    W.records r.name.val = some r.tt := by
  obtain ⟨i, hi⟩ := hW.findTopic_mem hr
  rw [World.records, hi, Option.map_some]

/-- A world keeps its own records. -/
theorem World.keeps (W : World) (acc acc' : List Message) (served served' : List Served)
    (sent sent' : List Post) :
    Spool.Keeps ⟨W.obs.registry acc served, W.records, sent⟩
      ⟨W.obs.registry acc' served', W.records, sent'⟩ where
  domain n := W.isSome_records n
  kept n p hn _ := hn
  fresh n p hn hp := by rw [hn] at hp; cases hp

/-- The records after a call. -/
theorem Effect.keeps {r : c.Ret} {served served' : List Served} {acc : List Message}
    (names : Nat → CStr) (he : Effect F c W b r W' b') (hW : W.Ok) (hW' : W'.Ok)
    (hd : W'.Distinct) (sent' : List Post) :
    Spool.Keeps ⟨W.obs.registry b.acc served, W.records, b.acc.map (Message.posted names)⟩
      ⟨W'.obs.registry acc served', W'.records, sent'⟩ where
  domain n := W'.isSome_records n
  kept n p hn hmem := by
    obtain ⟨q, hq⟩ := Option.isSome_iff_exists.mp ((W'.isSome_records n).mpr hmem)
    obtain ⟨reg, hreg, rfl, rfl⟩ := World.records_some hn
    obtain ⟨reg', hreg', hname, rfl⟩ := World.records_some hq
    change W'.records reg.name.val = some reg.tt
    rcases he.regs hreg' with hold | ⟨-, hall⟩
    · have hsame : reg' = reg := List.inj_on_of_nodup_map hW.names_nodup hold hreg hname
      rw [hq, hsame]
    · exact hW'.records_mem (hall reg hreg)
  fresh n p hn hp := by
    obtain ⟨reg, hreg, rfl, rfl⟩ := World.records_some hp
    change W.records reg.name.val = none at hn
    rcases he.regs hreg with hold | ⟨hnew, hall⟩
    · rw [hW.records_mem hold] at hn
      cases hn
    · refine ⟨fun n' hn' => ?_, fun x hx e => ?_⟩
      · obtain ⟨reg', hreg', rfl, htt⟩ := World.records_some hn'
        have hname := hd _ (hall reg' hreg') _ hreg htt
        rw [← hname, hW.records_mem hreg'] at hn
        cases hn
      · obtain ⟨m, hm, rfl⟩ := List.mem_map.mp hx
        exact hnew m hm (Option.some.inj e)

/-- **An effect is a move.** -/
theorem Effect.moves {r : c.Ret} {served : List Served} (names : Nat → CStr)
    (he : Effect F c W b r W' b') (hc : c.Plain) (hW : W.Ok) (hW' : W'.Ok) (hd : W'.Distinct)
    (hle : ∀ p, successes p served + failures p served ≤ sentWith p b.acc) :
    (Spool.object F).Moves
      ⟨W.obs.registry b.acc served, W.records, b.acc.map (Message.posted names)⟩ .todo
      ⟨W'.obs.registry b'.acc served, W'.records, b.acc.map (Message.posted names)⟩ (.done r) := by
  rcases he.certain with hsure | ⟨hF, hfall, hr, ho, hacc⟩
  · refine .single (.step (hsure.steps hc hW hle) ?_ (he.keeps names hW hW' hd _))
    rw [hc.posted, List.append_nil]
  · rw [ho, hacc, World.records_obs ho]
    exact .single (.fails hF hfall hr)

/-! ### How the table stands for the registry -/

/-- Only `rd_kafka_produce` accepts a message. -/
theorem Op.Unsent.messages {t : Nat} {o : Op} {a : Ans} {T T' : Tab} {d d' : Flow} {r : o.Res}
    (ho : o.Unsent) (h : o.act t a T d = some (r, T', d')) :
    d'.served = d.served ∧ d'.accepted = d.accepted := by
  cases o <;> cases a <;> simp only [Op.act] at h <;> first
    | exact ho.elim
    | (cases h; done)
    | (cases h; exact ⟨rfl, rfl⟩)
    | (obtain ⟨_, _, e⟩ := Option.map_eq_some_iff.mp h; cases e; exact ⟨rfl, rfl⟩)
    | (split at h <;> cases h; exact ⟨rfl, rfl⟩)

/-- What shows of a step of the environment: a report, as it is counted. -/
def Ev.shows (d : Flow) : Ev → Option (Nat × Bool)
  | .cbCount i _ =>
      match d.inflight[i]? with
      | some ⟨m, .running _ err⟩ => some (m.tt, decide (err = noError))
      | _                        => none
  | _ => none

/-- A report that shows is counted, of a message that was accepted. -/
theorem Ev.act_shown {e : Ev} {T : Tab} {d d' : Flow} {o : Nat × Bool} (h : e.act T d = some d')
    (ho : e.shows d = some o) : ∃ x : Served, d'.served = d.served ++ [x] ∧
      d'.accepted = d.accepted ∧ o = (x.msg.tt, decide (x.err = noError)) ∧
        x.msg ∈ uncounted d.inflight := by
  cases e with
  | cbCount i now =>
      simp only [Ev.shows] at ho
      simp only [Ev.act] at h
      split at h
      · rename_i m u err hq
        rw [hq] at ho
        cases h
        cases ho
        refine ⟨⟨m, err, now⟩, rfl, rfl, rfl, ?_⟩
        have hperm := uncounted_perm (getElem_perm hq).1
        rw [uncounted_cons] at hperm
        exact hperm.mem_iff.mpr List.mem_cons_self
      · cases h
  | cbEnter i u err => cases ho
  | cbReturn i => cases ho
  | pollCheck thr => cases ho
  | pollReturn thr => cases ho

/-- A step that shows nothing counts nothing. -/
theorem Ev.act_hidden {e : Ev} {T : Tab} {d d' : Flow} (h : e.act T d = some d')
    (ho : e.shows d = none) : d'.served = d.served ∧ d'.accepted = d.accepted := by
  cases e with
  | cbCount i now =>
      simp only [Ev.shows] at ho
      simp only [Ev.act] at h
      split at h
      · rename_i hq
        rw [hq] at ho
        cases ho
      · cases h
  | cbEnter i u err =>
      simp only [Ev.act] at h
      split at h <;> cases h
      exact ⟨rfl, rfl⟩
  | cbReturn i =>
      simp only [Ev.act] at h
      split at h <;> cases h
      exact ⟨rfl, rfl⟩
  | pollCheck thr =>
      simp only [Ev.act] at h
      split at h <;> cases h
      exact ⟨rfl, rfl⟩
  | pollReturn thr =>
      simp only [Ev.act] at h
      split at h <;> cases h
      exact ⟨rfl, rfl⟩

theorem Registry.Report.eq_of_stray {A A' : Registry} {ok : Bool} (h : A.Report ⟨none, ok⟩ A') :
    A' = A := by
  cases h
  rfl

/-- A report is a report of the registry, by its record. -/
theorem World.shown {acc : List Message} {served : List Served} {names : Nat → CStr} (hW : W.Ok)
    (hd : W.Distinct) {x : Served} (hx : x.msg ∈ acc)
    (hle : successes x.msg.tt (served ++ [x]) + failures x.msg.tt (served ++ [x]) ≤
      sentWith x.msg.tt acc) :
    Spool.Report ⟨W.obs.registry acc served, W.records, acc.map (Message.posted names)⟩
      (x.msg.tt, decide (x.err = noError))
      ⟨W.obs.registry acc (served ++ [x]), W.records, acc.map (Message.posted names)⟩ := by
  have hreport := World.report hW hd hle
  rw [Seen.delivery] at hreport
  cases ht : W.obs.seen.topicOf x.msg.tt with
  | some n =>
      obtain ⟨i, r, hf, htt⟩ := World.topicOf_some hW ht
      rw [ht] at hreport
      refine Spool.Report.counted (n := n) ?_ hreport
      rw [htt]
      exact congrArg (Option.map fun x : Nat × Reg => x.2.tt) hf
  | none =>
      rw [ht] at hreport
      rw [hreport.eq_of_stray]
      refine .stray (fun n hn => ?_) ⟨_, List.mem_map_of_mem hx, rfl⟩
      obtain ⟨y, hy, htt⟩ := Option.map_eq_some_iff.mp hn
      exact World.topicOf_none ht hy htt.symm

/-- The table's worlds, with the names of the records there ever were, and the messages accepted
and reported, stand for registries and what was sent through them. -/
def spoolOf (F : Prop) : Abstraction logic (Spool.object F) where
  World := World × (Nat → CStr)
  Is T w := T.Is w.1.cells
  Ok w := w.1.Ok ∧ w.1.Distinct ∧ w.1.Names w.2
  abs w d := ⟨w.1.obs.registry d.accepted d.served, w.1.records,
    d.accepted.map (Message.posted w.2)⟩
  quiet := Op.Unsent
  shows := Ev.shows
  env_shown {w e T d d' o} hw hi he ho := by
    obtain ⟨x, hserved, hacc, rfl, hx⟩ := Ev.act_shown he ho
    have hle := (hi.env he).reported_le x.msg.tt
    rw [hacc, hserved] at hle ⊢
    refine World.shown hw.1 hw.2.1 ?_ hle
    exact hi.conserved.mem_iff.mpr (List.mem_append_right _ hx)
  env_hidden he ho := by
    obtain ⟨hserved, hacc⟩ := Ev.act_hidden he ho
    rw [hserved, hacc]
  quiet_abs {w t o a T d r T' d'} ho ha := by
    obtain ⟨hserved, hacc⟩ := ho.messages ha
    rw [hserved, hacc]
  none_quiet {t o T d} hv := by
    cases o with
    | rdKafkaProduce rkt payload key tt => exact absurd rfl hv.1
    | _ => trivial

/-! ### Calls apart from the lock -/

/-- A call that is refused for its arguments. -/
theorem enters_ret {r : c.Ret} (hc : c.Plain)
    (he : ∀ (W : World) (b : View), W.Ok → Effect (Fails allows) c W b r W b) :
    (spoolOf (Fails allows)).Enters allows c (.ret r) :=
  .ret fun w T hw d hi =>
    ⟨.done r, (he w.1 (View.of 0 T d) hw.1).moves w.2 hc hw.1 hw.1 hw.2.1 hi.reported_le, rfl⟩

/-- A call that takes the lock at once, or never. -/
theorem works_of_enters {p : K c.Ret} {start : View → Prop}
    (h : (spoolOf (Fails allows)).Enters allows c p) :
    (spoolOf (Fails allows)).Works allows start c p :=
  ⟨Unit, pure (), fun _ => p, rfl, trivial, fun _ _ _ => h⟩

/-! ### Writers -/

/-- A writer's section that has its effect. -/
theorem enters_writing {body : K c.Ret} (hc : c.Plain) (hq : body.Straight Op.Unsent)
    (h : ∀ (W : World) (b : View) m, W.Ok → At .wr W.cells b m →
      logic.Safe (unbroken allows) body m fun r m' => Ends b m' fun W' =>
        ∀ b', b.Same b' → Effect (Fails allows) c W b r W' b') :
    (spoolOf (Fails allows)).Enters allows c (writing body) := by
  refine .writing (f := id) ⟨fun w T t d hw hT hi => ?_, hq⟩
  refine ⟨View.of t T d, Eq.refl (d.scratch t), View.sees_of t hi, ?_⟩
  refine (h w.1 (View.of t T d) _ hw.1 (At.of t .wr hT)).mono ?_
  rintro r m' ⟨W', b', hm', hW', hb, he⟩
  obtain ⟨names, hnames, hposted⟩ := (he b' hb).names hm'.sh.distinct hw.2.2
  refine ⟨(W', names), hm'.sh, ⟨hW', hm'.sh.distinct, hnames⟩, fun d₁ hi₁ hsees =>
    ⟨.done r, ?_, rfl⟩⟩
  -- what is reported meanwhile is of messages that were sent before
  have hacc : d₁.accepted = d.accepted := by
    have hs : d₁.accepted = m'.view.acc := hsees.acc
    rw [hs, hm'.view, hb.acc]
    rfl
  have hle := hi₁.reported_le
  rw [hacc] at hle
  have hmoves : (Spool.object _).Moves
      ⟨w.1.obs.registry d.accepted d₁.served, w.1.records, d.accepted.map (Message.posted w.2)⟩ _
      ⟨W'.obs.registry b'.acc d₁.served, W'.records, d.accepted.map (Message.posted w.2)⟩ _ :=
    (he b' hb).moves w.2 hc hw.1 hW' hm'.sh.distinct hle
  change (Spool.object _).Moves
    ⟨w.1.obs.registry d₁.accepted d₁.served, w.1.records, d₁.accepted.map (Message.posted w.2)⟩ _
    ⟨W'.obs.registry d₁.accepted d₁.served, W'.records, d₁.accepted.map (Message.posted names)⟩ _
  rw [hb.acc] at hmoves
  rw [hacc, show d.accepted.map (Message.posted names) = _ from hposted]
  exact hmoves

/-! ### Readers -/

/-- A look-up is what it is at any moment, while the table stays as it is. -/
theorem Peeks.act {o : Op} (ho : Peeks (.op o)) {t : Nat} {a : Ans} {T T' : Tab} {d d' : Flow}
    {r : o.Res} (ha : o.act t a T d = some (r, T', d')) :
    d' = d ∧ ∀ t₁ d₁, o.act t₁ .ok T d₁ = some (r, T, d₁) := by
  cases o with
  | loadKt => cases ha; exact ⟨rfl, fun _ _ => rfl⟩
  | readStr s => cases ha; exact ⟨rfl, fun _ _ => rfl⟩
  | loadTopic p =>
      obtain ⟨v, hv, e⟩ := Option.map_eq_some_iff.mp ha
      cases e
      exact ⟨rfl, fun _ _ => by simp only [Op.act, hv, Option.map_some]⟩
  | loadTk p =>
      obtain ⟨v, hv, e⟩ := Option.map_eq_some_iff.mp ha
      cases e
      exact ⟨rfl, fun _ _ => by simp only [Op.act, hv, Option.map_some]⟩
  | undefined => cases ha
  | _ => exact ho.elim

section reads

variable {T : Tab} {d : Flow} {w : World × (Nat → CStr)} {x : Progress c} {α γ : Type}

/-- The condition of a reader of the table. -/
abbrev ReadsTo (allows : Ans → Prop) (T : Tab) (w : World × (Nat → CStr)) {α : Type} (p : K α)
    (x : Progress c) (Q : α → Progress c → Prop) : Prop :=
  p.wp ((spoolOf (Fails allows)).reads (c := c) allows T w) x Q

theorem ReadsTo.mono {p : K α} {P Q : α → Progress c → Prop} (h : ReadsTo allows T w p x P)
    (hPQ : ∀ v y, P v y → Q v y) : ReadsTo allows T w p x Q :=
  Prog.wp_mono (Abstraction.reads_mono (M := spoolOf (Fails allows)) T w c) p hPQ h

theorem ReadsTo.bind {p : K α} {f : α → K γ} {P : α → Progress c → Prop}
    {Q : γ → Progress c → Prop} (h : ReadsTo allows T w p x P)
    (hf : ∀ v y, P v y → ReadsTo allows T w (f v) y Q) : ReadsTo allows T w (p >>= f) x Q :=
  Prog.wp_bind (h.mono hf)

/-- Look-ups answer what they answer alone, and are no moves. -/
theorem reads_peek {p : K α} {t : Nat} {b : View} {Q : α → Mode Tab View → Prop} (hi : Inv T d)
    (ho : d.scratch t = b.scratch) (hb : b.Sees d) (hp : Prog.Straight Peeks p)
    (hs : logic.Safe (alone fun _ => True) p ⟨.rd, T, b⟩ Q) (x : Progress c) :
    ReadsTo allows T w p x fun v y => y = x ∧ ∃ m, Q v m := by
  induction p generalizing b with
  | ret v => exact ⟨rfl, _, hs⟩
  | loop body q => exact hp.elim
  | call k q ih =>
      obtain ⟨hk, hq⟩ := hp
      cases k with
      | rdlock => exact hk.elim
      | wrlock => exact hk.elim
      | unlock => exact hk.elim
      | op o =>
          intro t' a d₁ r T' d' _ _ _ ha
          obtain ⟨rfl, hact⟩ := Peeks.act hk ha
          obtain ⟨-, hok⟩ := hs _ rfl t d hi ho fun _ => hb
          obtain ⟨-, b', ho', hb', hs'⟩ := hok .ok r T d trivial (hact t d)
          exact ⟨x, .refl, ih r ho' (hb' (Or.inr rfl)) (hq r) hs'⟩

/-- What accepts no message is no move. -/
theorem reads_quiet {p : K α} (hp : MadeOf Op.Unsent p) (x : Progress c) :
    ReadsTo allows T w p x fun _ y => y = x := by
  induction p with
  | ret v => rfl
  | loop body q => exact hp.elim
  | call k q ih =>
      obtain ⟨⟨o, rfl, ho⟩, hq⟩ := hp
      intro t a d₁ r T' d' _ _ _ ha
      refine ⟨x, ?_, ih r (hq r)⟩
      rw [show (spoolOf (Fails allows)).abs w d' = (spoolOf (Fails allows)).abs w d₁ from
        (spoolOf (Fails allows)).quiet_abs ho ha]
      exact .refl

end reads

/-- A reader's section of look-ups. -/
theorem enters_peek {body : K c.Ret} (hc : c.Plain) (hp : Prog.Straight Peeks body)
    (h : ∀ (W : World) (b : View) m, W.Ok → At .rd W.cells b m →
      logic.Safe (alone fun _ => True) body m fun r _ =>
        ∀ b, Effect (Fails allows) c W b r W b) :
    (spoolOf (Fails allows)).Enters allows c (reading body) := by
  refine .reading (f := id) fun w T d hw hT hi => ?_
  refine ReadsTo.mono (reads_peek hi rfl (View.sees_of 0 hi) hp
    (h w.1 _ _ hw.1 (At.of 0 .rd hT)) .todo) ?_
  rintro r y ⟨rfl, -, he⟩ d₁ hi₁
  exact ⟨.done r, (he (View.of 0 T d₁)).moves w.2 hc hw.1 hw.1 hw.2.1 hi₁.reported_le, rfl⟩

/-! ### `kafka_table_send` -/

section send

variable {T : Tab} {w : World × (Nat → CStr)} {topic : Option CStr} {data : List UInt8}

theorem poll_unsent (rk : Nat) : MadeOf Op.Unsent (rdKafkaPoll rk) :=
  .op trivial fun _ => .call trivial

/-- What the loop of `tek_kafka_topic_feed_key` comes to: the message is accepted, or refused. -/
def Fed (allows : Ans → Prop) (data : List UInt8) (status : TekKafkaStatus)
    (x : Progress (.send topic data)) : Prop :=
  status = .success ∧ x = .done (cInt data.length) ∨ status = .error ∧ x = .todo ∧ Fails allows

/-- An accepted message is the move of the send. -/
theorem move_sent {F : Prop} {d : Flow} {n : CStr} {i : Nat} {reg : Reg} (hw : (spoolOf F).Ok w)
    (hx : w.1.findTopic n = some (i, reg)) (hlen : data.length ≤ messageMaxBytes) {m : Message}
    (htt : m.tt = reg.tt) (hm : m.payload = data) :
    Spool.Move F (c := .send (some n) data)
      ⟨w.1.obs.registry d.accepted d.served, w.1.records, d.accepted.map (Message.posted w.2)⟩ .todo
      ⟨w.1.obs.registry (d.accepted ++ [m]) d.served, w.1.records,
        (d.accepted ++ [m]).map (Message.posted w.2)⟩ (.done (cInt data.length)) := by
  obtain ⟨hi, hn⟩ := World.findTopic_some hx
  have hlook : (w.1.obs.registry d.accepted d.served).topics.lookup n =
      some (.of d.accepted d.served reg.tt) := by
    rw [World.lookup_registry, hx]
    rfl
  refine .step ?_ ?_ (w.1.keeps _ _ _ _ _ _)
  · change (w.1.obs.registry d.accepted d.served).step (.send (some n) data) = _
    rw [Registry.step, Registry.send, hlook]
    exact congrArg some (Prod.ext (World.registry_sent hw.2.1 hx htt).symm rfl)
  · have hname : w.2 m.tt = n := by rw [htt, hw.2.2 reg (List.mem_of_getElem? hi), hn]
    have hpos : 0 ≤ cInt data.length := by
      rw [cInt_of_le hlen]
      exact Int.natCast_nonneg _
    have hrecord : w.1.records n = some m.tt := by rw [World.records, hx, htt]; rfl
    rw [Spool.posted, if_pos hpos]
    dsimp only
    rw [hrecord, List.map_append, List.map_singleton, Message.posted, hname, hm]

/-- With no such topic nothing is sent. -/
theorem move_unsent {F : Prop} {sent : List Post} {acc : List Message} {served : List Served}
    (hf : topic.bind w.1.findTopic = none) :
    Spool.Move F (c := .send topic data) ⟨w.1.obs.registry acc served, w.1.records, sent⟩ .todo
      ⟨w.1.obs.registry acc served, w.1.records, sent⟩ (.done (-1)) := by
  refine .step ?_ ?_ (w.1.keeps _ _ _ _ _ _)
  · change (w.1.obs.registry acc served).step (.send topic data) = _
    cases topic with
    | none => rfl
    | some n =>
        rw [Registry.step, Registry.send, World.lookup_registry,
          show w.1.findTopic n = none from hf]
        rfl
  · cases topic with
    | none => exact (List.append_nil _).symm
    | some n =>
        have hneg : ¬ (0 : Int) ≤ -1 := by decide
        rw [Spool.posted, if_neg hneg, List.append_nil]

/-- **The message is sent when `rd_kafka_produce` accepts it.** -/
theorem feedKey_reads {i : Nat} {reg : Reg} (hw : (spoolOf (Fails allows)).Ok w)
    (hf : topic.bind w.1.findTopic = some (i, reg)) (rkt rk : Nat) :
    ReadsTo allows T w (c := .send topic data)
      (tekKafkaTopicFeedKey reg.tt rkt rk none 0 data) .todo (Fed allows data) := by
  obtain ⟨n, rfl, hx⟩ := Option.bind_eq_some_iff.mp hf
  refine Prog.wp_loop (fun x => x = .todo) rfl ?_
  rintro x rfl
  refine Prog.wp_bind ?_
  intro t a d r T' d' ha hi hv hact
  cases a with
  | ok =>
      -- the move of the call
      have hact' : (if data.length ≤ messageMaxBytes then _ else none) = some (r, T', d') := hact
      split at hact' <;> cases hact'
      rename_i hlen
      refine ⟨.done (cInt data.length), .single ?_, ?_⟩
      · exact move_sent hw hx hlen rfl rfl
      · refine ReadsTo.bind (reads_quiet (poll_unsent rk) _) ?_
        rintro _ _ rfl
        exact Or.inl ⟨rfl, rfl⟩
  | queueFull =>
      cases hact
      refine ⟨.todo, .refl, ReadsTo.bind (reads_quiet (poll_unsent rk) _) ?_⟩
      rintro _ _ rfl
      rfl
  | fail err text =>
      cases hact
      refine ⟨.todo, .refl, ?_⟩
      by_cases he : err = queueFull
      · subst he
        refine ReadsTo.bind (reads_quiet (poll_unsent rk) _) ?_
        rintro _ _ rfl
        rfl
      · have hround : (if err = queueFull then (do rdKafkaPoll rk; pure none)
            else pure (some .error) : K (Option TekKafkaStatus)) = pure (some .error) := if_neg he
        change Prog.wp _ (if err = queueFull then (do rdKafkaPoll rk; pure none)
          else pure (some .error) : K (Option TekKafkaStatus)) _ _
        rw [hround]
        exact Or.inr ⟨rfl, rfl, err, text, ha⟩

theorem feed_reads {d : Flow} {i : Nat} {reg : Reg} (hi : Inv T d) (hT : T.Is w.1.cells)
    (hw : (spoolOf (Fails allows)).Ok w) (hf : topic.bind w.1.findTopic = some (i, reg)) :
    ReadsTo allows T w (c := .send topic data) (tekKafkaTopicFeed reg.tt data) .todo
      (Fed allows data) := by
  obtain ⟨n, rfl, hx⟩ := Option.bind_eq_some_iff.mp hf
  obtain ⟨conn, hc⟩ := World.conn_of_findTopic hx
  have hreg := World.mem_of_findTopic hc hx
  have htopic : Prog.Straight Peeks (call (.loadTopic reg.tt)) := ⟨trivial, fun _ => trivial⟩
  have htk : Prog.Straight Peeks (call (.loadTk conn.tk)) := ⟨trivial, fun _ => trivial⟩
  refine ReadsTo.bind (reads_peek hi rfl (View.sees_of 0 hi) htopic
    (loadTopic_spec (At.of 0 .rd hT) Held.noConfusion (World.reg_mem hc hreg)) .todo) ?_
  rintro _ _ ⟨rfl, -, rfl, -⟩
  refine ReadsTo.bind (reads_peek hi rfl (View.sees_of 0 hi) htk
    (loadTk_spec (At.of 0 .rd hT) Held.noConfusion (World.producer_mem hc)) .todo) ?_
  rintro _ _ ⟨rfl, -, rfl, -⟩
  exact feedKey_reads hw hf reg.rkt conn.rk

/-- **A send** is a move of the registry. -/
theorem send_enters : (spoolOf (Fails allows)).Enters allows (.send topic data)
    (kafkaTableSend topic data) := by
  rw [kafkaTableSend_eq]
  change (spoolOf (Fails allows)).Enters allows (.send topic data) (LProg.rdlock >>= fun _ =>
    Conc.closing (sendBody topic data) fun sent => if sent then cInt data.length else -1)
  rw [sendBody]
  refine .reading fun (w : World × (Nat → CStr)) T d hw hT hi => ?_
  refine ReadsTo.bind (reads_peek hi rfl (View.sees_of 0 hi) (peeks_find topic)
    (kafkaTableFindLocked_spec (At.of 0 .rd hT) Held.noConfusion) .todo) ?_
  rintro _ _ ⟨rfl, -, rfl, -⟩
  cases hf : topic.bind w.1.findTopic with
  | none =>
      intro d₁ hi₁
      exact ⟨.done (-1), .single (move_unsent hf), rfl⟩
  | some y =>
      refine ReadsTo.bind (feed_reads hi hT hw hf) ?_
      rintro _ _ (⟨rfl, rfl⟩ | ⟨rfl, rfl, hF⟩)
      · intro d₁ _
        exact ⟨_, .refl, congrArg Progress.done (if_pos (decide_eq_true rfl)).symm⟩
      · intro d₁ _
        exact ⟨.done (-1), .single (.fails hF trivial rfl), rfl⟩

end send

/-! ### `kafka_topic_get_stats` -/

section stats

variable {T : Tab} {w : World × (Nat → CStr)} {topic : Option CStr}

theorem flush_unsent (tk : Option Nat) : MadeOf Op.Unsent (tekKafkaProducerFlush tk) := by
  cases tk with
  | none => exact .pure
  | some tk =>
      refine .op trivial fun v => ?_
      split
      · exact .pure
      · exact (poll_unsent _).bind fun _ => .call trivial

/-- **The counters are read in two moves.** -/
theorem readCounters_reads {i : Nat} {reg : Reg}
    (hf : topic.bind w.1.findTopic = some (i, reg)) :
    ReadsTo allows T w (c := .getStats topic) (readCounters reg.tt) .todo
      fun r x => x = .done r := by
  have hreading : ∀ (d : Flow) (counter : Counters → Nat),
      (w.1.obs.registry d.accepted d.served).reading counter topic =
        UInt32.ofNat (counter (.of d.accepted d.served reg.tt)) := by
    intro d counter
    rw [Registry.reading, World.find_registry, hf]
    rfl
  intro t a d r T' d' _ hi hv hact
  cases hact
  refine ⟨.read (d.report reg.tt).transferred, .single ?_, ?_⟩
  · have hread : (d.report reg.tt).transferred =
        (w.1.obs.registry d.accepted d.served).reading (·.transferred) topic := by
      rw [hreading d, (hi.counted reg.tt hv.2).1]
      rfl
    rw [hread]
    exact .transferred
  · intro t a d r T' d' _ hi hv hact
    cases hact
    refine ⟨.done (_, (d.report reg.tt).failed), .single ?_, rfl⟩
    have hread : (d.report reg.tt).failed =
        (w.1.obs.registry d.accepted d.served).reading (·.failed) topic := by
      rw [hreading d, (hi.counted reg.tt hv.2).2]
      rfl
    rw [hread]
    exact .failed

/-- **A reading of the counters** is two moves of the registry. -/
theorem getStats_enters : (spoolOf (Fails allows)).Enters allows (.getStats topic)
    (kafkaTopicGetStats topic) := by
  refine .reading (f := id) fun (w : World × (Nat → CStr)) T d hw hT hi => ?_
  refine ReadsTo.bind (reads_peek hi rfl (View.sees_of 0 hi) (peeks_find topic)
    (kafkaTableFindLocked_spec (At.of 0 .rd hT) Held.noConfusion) .todo) ?_
  rintro _ _ ⟨rfl, -, rfl, -⟩
  cases hf : topic.bind w.1.findTopic with
  | none =>
      intro d₁ hi₁
      have hzero : ∀ counter : Counters → Nat,
          (w.1.obs.registry d₁.accepted d₁.served).reading counter topic = 0 := by
        intro counter
        rw [Registry.reading, World.find_registry, hf]
        rfl
      let S := (spoolOf (Fails allows)).abs w d₁
      have hfirst : Spool.Move (Fails allows) S (.todo : Progress (.getStats topic)) S
          (.read (S.registry.reading (·.transferred) topic)) := .transferred
      have hsecond : Spool.Move (Fails allows) S (.read 0 : Progress (.getStats topic)) S
          (.done (0, S.registry.reading (·.failed) topic)) := .failed
      change ∀ counter : Counters → Nat, S.registry.reading counter topic = 0 at hzero
      rw [hzero] at hfirst hsecond
      exact ⟨.done (0, 0), .trans (.single hfirst) (.single hsecond), rfl⟩
  | some y =>
      refine ReadsTo.bind (reads_quiet (MadeOf.call (o := .loadTopic y.2.tt) trivial) _) ?_
      rintro v _ rfl
      refine ReadsTo.bind (reads_quiet (flush_unsent v.producer) _) ?_
      rintro _ _ rfl
      refine ReadsTo.mono (readCounters_reads hf) ?_
      rintro r _ rfl d₁ _
      exact ⟨_, .refl, rfl⟩

end stats

/-! ### The other calls -/

section calls

theorem peeks_brokers {buflen : Nat} : Prog.Straight Peeks (do
    let kt ← call .loadKt
    match kt.producer with
    | none    => pure (0, [])
    | some tk =>
        let v ← call (.loadTk tk)
        match v.brokers with
        | none   => pure (0, [])
        | some s =>
            let brokers ← call (.readStr s)
            pure (1, brokers.1.take (buflen - 1)) : K (Int × List UInt8)) := by
  refine ⟨trivial, fun kt => ?_⟩
  simp only [Prog.bind]
  split
  · trivial
  · refine ⟨trivial, fun v => ?_⟩
    simp only [Prog.bind]
    split
    · trivial
    · exact ⟨trivial, fun _ => trivial⟩

theorem peeks_describe (buflen : Nat) (ps : List KafkaParam) (used : Nat) (buf : List UInt8) :
    Prog.Straight Peeks (describeParams buflen ps used buf) := by
  induction ps generalizing used buf with
  | nil => trivial
  | cons p ps ih =>
      rw [describeParams]
      split
      · refine ⟨trivial, fun name => ?_⟩
        have hshown : Prog.Straight Peeks (shownValue name p) := by
          unfold shownValue
          split
          · trivial
          · exact ⟨trivial, fun _ => trivial⟩
        refine hshown.bind fun shown => ?_
        dsimp only
        split
        · exact ih _ _
        · trivial
      · trivial

theorem validateParam_apart (name value : Option CStr) :
    (kafkaTableValidateParam name value).Apart := by
  have hcall : ∀ o : Op, ∃ o', Conc.LockCall.op o = .op o' := fun o => ⟨o, rfl⟩
  unfold kafkaTableValidateParam
  split
  · split
    · trivial
    · refine ⟨hcall _, fun scratch => ?_⟩
      cases scratch with
      | none => trivial
      | some p =>
          refine ⟨hcall _, fun r => ?_⟩
          cases r with
          | error text => exact ⟨hcall _, fun _ => trivial⟩
          | ok u => exact ⟨hcall _, fun _ => trivial⟩
  · trivial

/-- What the check of a parameter answers, among the others. -/
theorem validateParam_answers {name value : Option CStr} (T : Tab) (b : View) :
    logic.Safe (unbroken allows) (kafkaTableValidateParam name value) ⟨.none, T, b⟩ fun r _ =>
      (r = .ok () → ∃ n v, name = some n ∧ value = some v ∧ zstr (some n) = false) ∧
      (r ≠ .ok () → zstr name = true ∨ value = none ∨ Fails allows) :=
  (kafkaTableValidateParam_spec (J := fun _ => True) (b := b) (fun _ _ => trivial)
    ⟨rfl, trivial, rfl⟩).mono fun _ _ h => ⟨h.1, h.2.1⟩

theorem validateParam_works (name value : Option CStr) :
    (spoolOf (Fails allows)).Works allows View.Idle (.validateParam name value)
      (kafkaTableValidateParam name value) := by
  refine ⟨_, _, pure, (Prog.bind_ret _).symm, validateParam_apart name value, fun T b _ => ?_⟩
  refine (validateParam_answers T b).mono ?_
  rintro r _ ⟨hok, hno⟩
  refine enters_ret trivial fun W b _ => ⟨rfl, rfl, fun e => ?_, hno⟩
  obtain ⟨n, v, rfl, rfl, hz⟩ := hok e
  exact ⟨hz, rfl⟩

theorem setParam_works (name value : Option CStr) :
    (spoolOf (Fails allows)).Works allows View.Idle (.setParam name value)
      (kafkaTableSetParam name value) := by
  refine ⟨_, _, _, rfl, validateParam_apart name value, fun T b _ => ?_⟩
  refine (validateParam_answers T b).mono ?_
  rintro r _ ⟨hok, hno⟩
  cases r with
  | error text =>
      refine enters_ret trivial fun W b _ => ⟨.refl b, fun e => (by cases e), fun _ => ⟨.refl _, ?_⟩⟩
      exact (hno (by simp)).imp_right (Or.imp_right Or.inr)
  | ok u =>
      obtain ⟨n, v, rfl, rfl, hz⟩ := hok rfl
      refine enters_writing trivial (straight_unsent (setParamLocked_straight n v)) fun W b m hW hm => ?_
      refine (kafkaTableSetParamLocked_spec hm hW hz).mono ?_
      rintro r m' ⟨W', b', hm', hW', hb, hset, -, hfail⟩
      refine ⟨W', b', hm', hW', hb, fun b' hb => ⟨hb, fun e => ⟨n, v, rfl, rfl, hz, hset⟩, ?_⟩⟩
      exact fun e => ⟨hset.fail e, Or.inr (Or.inr (hfail e))⟩

theorem connect_enters (brokers : Option CStr) :
    (spoolOf (Fails allows)).Enters allows (.connect brokers) (kafkaTableConnect brokers) := by
  have hrefuse : ∀ text, zstr brokers = true → (spoolOf (Fails allows)).Enters allows
      (.connect brokers) (pure (.error text)) := fun text hz =>
    enters_ret trivial fun W b _ =>
      ⟨.refl b, fun e => (by cases e), fun _ => ⟨.refl _, Or.inl hz⟩, Or.inl rfl⟩
  cases brokers with
  | none => exact hrefuse _ rfl
  | some bs =>
      simp only [kafkaTableConnect]
      by_cases hz : zstr (some bs) = true
      · rw [if_pos hz]
        exact hrefuse _ hz
      · rw [if_neg hz]
        have hz' : zstr (some bs) = false := by simpa using hz
        refine enters_writing trivial (connectLocked_unsent bs) fun W b m hW hm => ?_
        refine (kafkaTableConnectLocked_spec hm hW hz').mono ?_
        rintro r m' ⟨W', b', hm', hW', hb, hc, -, hf⟩
        refine ⟨W', b', hm', hW', hb, fun b' hb => ⟨hb, fun _ => ⟨bs, rfl, hz', hc⟩, ?_, ?_⟩⟩
        · exact fun e => ⟨hc.fail e, Or.inr (hf e)⟩
        · exact hc.handed.imp_right fun e => ⟨bs, rfl, e⟩

theorem create_enters (topic : Option CStr) :
    (spoolOf (Fails allows)).Enters allows (.create topic) (kafkaTableCreate topic) := by
  refine enters_writing trivial (createSection_unsent topic) fun W b m hW hm => ?_
  refine (createLocked_spec hm hW).mono ?_
  rintro r m' ⟨W', b', hm', hW', hb, hc, -, hf⟩
  exact ⟨W', b', hm', hW', hb, fun b' hb => ⟨hb, hc, hf⟩⟩

theorem dismiss_enters (topic : Option CStr) :
    (spoolOf (Fails allows)).Enters allows (.dismiss topic) (kafkaTableDismiss topic) := by
  cases topic with
  | none => exact enters_ret trivial fun W b _ => ⟨.refl b, Or.inr ⟨rfl, rfl, rfl⟩⟩
  | some t =>
      simp only [kafkaTableDismiss]
      by_cases hz : zstr (some t) = true
      · rw [if_pos hz]
        exact enters_ret trivial fun W b _ => ⟨.refl b, Or.inr ⟨hz, rfl, rfl⟩⟩
      · rw [if_neg hz]
        refine enters_writing trivial (dismissSection_unsent hz) fun W b m hW hm => ?_
        refine (dismissLocked_spec hm hW).mono ?_
        rintro r m' ⟨W', b', hm', hW', hb, hd, -⟩
        refine ⟨W', b', hm', hW', hb, fun b' hb => ⟨hb, Or.inl ⟨t, rfl, by simpa using hz, hd⟩⟩⟩

theorem unsetParam_enters (name : Option CStr) :
    (spoolOf (Fails allows)).Enters allows (.unsetParam name) (kafkaTableUnsetParam name) := by
  cases name with
  | none => exact enters_ret trivial fun W b _ => ⟨.refl b, Or.inr ⟨rfl, rfl, rfl⟩⟩
  | some n =>
      simp only [kafkaTableUnsetParam]
      by_cases hz : zstr (some n) = true
      · rw [if_pos hz]
        exact enters_ret trivial fun W b _ => ⟨.refl b, Or.inr ⟨hz, rfl, rfl⟩⟩
      · rw [if_neg hz]
        refine enters_writing trivial (unsetSection_unsent hz) fun W b m hW hm => ?_
        refine (kafkaTableUnsetParamLocked_spec hm hW).mono ?_
        rintro r m' ⟨W', b', hm', hW', hb, hu, -⟩
        exact ⟨W', b', hm', hW', hb, fun b' hb => ⟨hb, Or.inl ⟨n, rfl, by simpa using hz, hu⟩⟩⟩

/-- **Every function** is the registry's call. -/
theorem tableProg_works (c : TableCall) :
    (spoolOf (Fails allows)).Works allows View.Idle c (tableProg c) := by
  have hrd : Held.rd ≠ Held.none := Held.noConfusion
  cases c with
  | validateParam name value => exact validateParam_works name value
  | setParam name value => exact setParam_works name value
  | connect brokers => exact works_of_enters (connect_enters brokers)
  | create topic => exact works_of_enters (create_enters topic)
  | send topic data => exact works_of_enters send_enters
  | dismiss topic => exact works_of_enters (dismiss_enters topic)
  | unsetParam name => exact works_of_enters (unsetParam_enters name)
  | getStats topic => exact works_of_enters getStats_enters
  | connected =>
      refine works_of_enters (enters_peek trivial ⟨trivial, fun _ => trivial⟩ fun W b m _ hm => ?_)
      refine (connectedBody_spec hm hrd).mono ?_
      rintro r _ ⟨hr, -⟩ b
      exact ⟨rfl, rfl, hr⟩
  | «exists» topic =>
      refine works_of_enters (enters_peek trivial ((peeks_find topic).bind fun _ => trivial)
        fun W b m _ hm => ?_)
      refine (existsBody_spec hm hrd).mono ?_
      rintro r _ ⟨hr, -⟩ b
      exact ⟨rfl, rfl, hr⟩
  | getBrokers buflen =>
      refine works_of_enters ?_
      simp only [tableProg, kafkaTableGetBrokers]
      by_cases h0 : buflen = 0
      · rw [if_pos h0]
        exact enters_ret trivial fun W b _ => ⟨rfl, rfl, by rw [if_pos h0]⟩
      · rw [if_neg h0]
        refine enters_peek trivial peeks_brokers fun W b m _ hm => ?_
        refine (getBrokersBody_spec hm hrd).mono ?_
        rintro r _ ⟨hr, -⟩ b
        exact ⟨rfl, rfl, by rw [if_neg h0]; exact hr⟩
  | describeParams buflen =>
      refine works_of_enters ?_
      simp only [tableProg, kafkaTableDescribeParams]
      by_cases h0 : buflen = 0
      · rw [if_pos h0]
        exact enters_ret trivial fun W b _ => ⟨rfl, rfl, by rw [if_pos h0]⟩
      · rw [if_neg h0]
        refine enters_peek trivial ⟨trivial, fun kt => (peeks_describe _ _ _ _).bind fun _ => trivial⟩
          fun W b m _ hm => ?_
        refine (describeBody_spec hm hrd).mono ?_
        rintro r _ ⟨hr, -⟩ b
        exact ⟨rfl, rfl, by rw [if_neg h0]; exact hr⟩
  | dismissAll =>
      refine works_of_enters (enters_writing trivial dismissAllLocked_unsent fun W b m hW hm => ?_)
      refine (kafkaTableDismissAllLocked_spec hm hW).mono ?_
      rintro r m' ⟨W', b', hm', hW', hb, hd⟩
      exact ⟨W', b', hm', hW', hb, fun b' hb => ⟨hb, hd⟩⟩

end calls

/-! ### Every run -/

/-- The names are those of the registered topics. -/
def Tab.Names (T : Tab) (names : Nat → CStr) : Prop :=
  ∀ e ∈ T.seen.topics, Named (names e.1) e

theorem World.Names.seen {T : Tab} {names : Nat → CStr} (h : W.Names names) (hT : T.Is W.cells) :
    T.Names names := by
  intro e he
  rw [hT.seen, Obs.seen_topics] at he
  obtain ⟨r, hr, rfl⟩ := List.mem_map.mp he
  have hname := Obs.named_record W.obs r
  rwa [← h r hr] at hname

/-- What is seen of a run is seen of a run of the registry's object. -/
theorem spooled {ls : List (Label Ans Ev TableCall)} {s : Machine}
    (h : Cfg.RunBy iface tableProg (fun _ l => l.Answers allows) Machine.initial ls s) :
    Goes sharing (spoolOf (Fails allows)) allows Spool.empty
      (Cfg.seen iface tableProg Ev.shows ls Machine.initial) s := by
  have hnames : World.init.Names fun _ => .lit "" := fun r hr => (by cases hr)
  have hok : (spoolOf (Fails allows)).Ok (World.init, fun _ => .lit "") :=
    ⟨World.ok_init, World.is_init.distinct, hnames⟩
  have hatomic : Atomic sharing (spoolOf (Fails allows)) allows := tableProg_works
  exact hatomic.refines Machine.good_initial hok World.is_init h

/-- **Concurrent calls are atomic.**  Whatever the interleaving, the calls, the returns and the
reports of a run are those of the registry's atomic moves, the messages accepted are those the moves
sent, in their order, and whenever nobody writes the registry of the state is the one they come to.
Calls fail beyond that only if something outside may fail. -/
theorem linearizable {ls : List (Label Ans Ev TableCall)} {s : Machine}
    (h : Cfg.RunBy iface tableProg (fun _ l => l.Answers allows) Machine.initial ls s) :
    ∃ (a : (Spool.object (Fails allows)).Cfg) (names : Nat → CStr),
      (Spool.object (Fails allows)).Run .empty
          (Cfg.seen iface tableProg Ev.shows ls Machine.initial) a ∧
        a.st.sent = s.fr.accepted.map (Message.posted names) ∧
        (s.lock.NoWriter → a.st.registry = s.sh.registry s.fr ∧ s.sh.Names names) := by
  obtain ⟨⟨W, names⟩, a, hrun, hmirrors⟩ := spooled h
  refine ⟨a, names, hrun, congrArg Spool.sent hmirrors.st, fun hn => ?_⟩
  have hT : s.sh.Is (World.cells W) := hmirrors.is hn
  exact ⟨(congrArg Spool.registry hmirrors.st).trans (hT.registry s.fr).symm,
    World.Names.seen hmirrors.ok.2.2 hT⟩

/-! ### A run -/

/-- Three sessions take turns, nothing failing. -/
def turns (n : Nat) : List (Label Ans Ev TableCall) :=
  (List.replicate n [.step 1 .ok, .step 2 .ok, .step 3 .ok]).flatten

/-- Two sends to one topic and a reading of its counters, each in the middle of the others, with a
report of the first. -/
def overlapping : List (Label Ans Ev TableCall) :=
  calling 0 (.connect (some (.lit "b"))) 20 ++ calling 0 (.create (some (.lit "t"))) 15 ++
    [.start 1 (.send (some (.lit "t")) [1, 2]), .start 2 (.send (some (.lit "t")) [3]),
      .start 3 (.getStats (some (.lit "t")))] ++
    turns 9 ++ [.env (.cbEnter 0 (.poll 0) noError), .env (.cbCount 0 5)] ++ turns 2 ++
    [.step 3 .ok, .finish 2, .finish 3, .finish 1]

/-- Its calls are atomic. -/
theorem overlapping_linearizable : ∃ (s : Machine) (a : (Spool.object (Fails Ans.Granted)).Cfg),
    (Spool.object (Fails Ans.Granted)).Run .empty
        (Cfg.seen iface tableProg Ev.shows overlapping Machine.initial) a ∧
      a.st.registry = s.sh.registry s.fr ∧ a.st.sent.map (·.payload) = [[1, 2], [3]] ∧
      s.hist.map (fun f => (f.1, f.2.1.returned f.2.2)) =
        [(0, 0), (0, 0), (2, 1), (3, 0), (1, 2)] := by
  have hrun : (Cfg.run iface tableProg overlapping Machine.initial).map (fun s =>
      (decide s.lock.NoWriter, s.fr.accepted.map (·.payload),
        s.hist.map fun f => (f.1, f.2.1.returned f.2.2))) =
        some (true, [[1, 2], [3]], [(0, 0), (0, 0), (2, 1), (3, 0), (1, 2)]) := by
    decide +kernel
  obtain ⟨s, hs, he⟩ := Option.map_eq_some_iff.mp hrun
  obtain ⟨hn, hpayloads, hhist⟩ := by simpa only [Prod.mk.injEq] using he
  have hok : ∀ l ∈ overlapping, ∀ s : Machine, l.Answers Ans.Granted := by
    simp [overlapping, calling, turns, Label.Answers, Ans.Granted]
  obtain ⟨a, names, ha, hsent, hst⟩ := linearizable (Cfg.runBy_of_run hok hs)
  refine ⟨s, a, ha, (hst (of_decide_eq_true hn)).1, ?_, hhist⟩
  rw [hsent, List.map_map]
  exact hpayloads

end TrigEmit
