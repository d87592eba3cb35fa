import TrigEmitKafka.Results.Accounting
import TrigEmitKafka.Results.Failures
import TrigEmitKafka.Rules.Granted
import TrigEmitKafka.Rules.Sessions
import TrigEmitKafka.Spec.Registry

/-!
# Results — the registry refines a machine of finite maps

`Tab.registry` reads the abstract registry off a state: the broker list of the producer, the map of
the stored parameters, and the map from the topics' names to the messages accepted with their
records and the reports counted of them.  A run is a list of turns, and `playing` runs it: it shows
each call with its result, and each report with the topic of its record, as they come.

* `registry_refines`: in every run from load whose calls from outside succeed, the calls return
  what the abstract registry returns among the same reports, and leave what it leaves; the arrays
  of the state are well formed; and a dismissal leaves every other topic as it was.
-/

namespace TrigEmit

open Conc (exec)
open Conc.Logic (Allowed alone)
open Slots (card_keys_toFinmap firstIdx firstIdx_map firstIdx_some lookup_toFinmap map_swapRemove
  mem_toFinmap perm_cons_swapRemove put_eq_append swapRemove toFinmap toFinmap_put toFinmap_swapRemove toMap_map)

/-! ### The registry a state stands for -/

/-- The counters of a record: `acc` are the messages accepted, `served` the reports counted. -/
def Counters.of (acc : List Message) (served : List Served) (tt : Nat) : Counters :=
  ⟨sentWith tt acc, successes tt served, failures tt served⟩

/-- The registry of a state. -/
def Tab.registry (T : Tab) (d : Flow) : Registry where
  producer := T.seen.brokers
  params := toFinmap T.seen.params
  topics := toFinmap (T.seen.topics.map fun e => (entryName e, .of d.accepted d.served e.1))

/-- The registered topics with their counters. -/
def Obs.counters (o : Obs) (acc : List Message) (served : List Served) : List (CStr × Counters) :=
  o.topics.map fun r => (r.name.val, .of acc served r.tt)

/-- The registry of a world. -/
def Obs.registry (o : Obs) (acc : List Message) (served : List Served) : Registry where
  producer := o.producer.map (·.brokers.val)
  params := toFinmap o.params
  topics := toFinmap (o.counters acc served)

/-- The name of the registered topic of the record `p`. -/
def Seen.topicOf (S : Seen) (p : Nat) : Option CStr :=
  (S.topics.find? fun e => e.1 = p).map entryName

/-- A counted report, by the topic of its record. -/
def Seen.delivery (S : Seen) (x : Served) : Delivery :=
  ⟨S.topicOf x.msg.tt, decide (x.err = noError)⟩

theorem Tab.Is.registry {T : Tab} {W : World} (h : T.Is W.cells) (d : Flow) :
    T.registry d = W.obs.registry d.accepted d.served := by
  simp only [Tab.registry, h.seen, Obs.registry, Obs.seen, List.map_map]
  rfl

variable {W : World} {acc : List Message} {served : List Served}

/-- A topic of the registry is one the search finds. -/
theorem World.lookup_registry (W : World) (acc : List Message) (served : List Served) (n : CStr) :
    (W.obs.registry acc served).topics.lookup n =
      (W.findTopic n).map fun x => .of acc served x.2.tt := by
  rw [Obs.registry, lookup_toFinmap, Obs.counters, toMap_map _ _ _ _ 0]
  rfl

theorem World.mem_registry {n : CStr} :
    n ∈ (W.obs.registry acc served).topics ↔ (W.findTopic n).isSome := by
  rw [← Finmap.lookup_isSome, World.lookup_registry, Option.isSome_map]

theorem World.find_registry (topic : Option CStr) :
    (W.obs.registry acc served).find topic =
      (topic.bind W.findTopic).map fun x => .of acc served x.2.tt := by
  cases topic with
  | none => rfl
  | some n => exact W.lookup_registry acc served n

theorem World.producer_registry :
    (W.obs.registry acc served).producer.isSome = W.conn.isSome := by
  simp [Obs.registry, World.obs]

theorem World.producer_registry_none :
    (W.obs.registry acc served).producer = none ↔ W.conn = none := by
  simp [Obs.registry, World.obs]

/-! ### Reports -/

/-- Two registered topics of one record are one. -/
def World.Distinct (W : World) : Prop :=
  ∀ r ∈ W.regs, ∀ r' ∈ W.regs, r.tt = r'.tt → r.name.val = r'.name.val

theorem Tab.Is.distinct {T : Tab} (h : T.Is W.cells) : W.Distinct := by
  intro r hr r' hr' e
  cases hc : W.conn with
  | none =>
      rw [World.regs, hc] at hr
      cases hr
  | some conn =>
      rw [World.regs_conn hc] at hr hr'
      have hget : T.topics.get r.tt = some ⟨some r.name, some r.rkt, some conn.tk⟩ :=
        h.topics.get (World.reg_mem hc hr)
      have hget' : T.topics.get r'.tt = some ⟨some r'.name, some r'.rkt, some conn.tk⟩ :=
        h.topics.get (World.reg_mem hc hr')
      rw [e, hget', Option.some.injEq, TekTopic.mk.injEq, Option.some.injEq] at hget
      rw [hget.1]

/-- Topics of two names have two records. -/
theorem World.Distinct.ne (hd : W.Distinct) {n m : CStr} {x y : Nat × Reg}
    (hx : W.findTopic n = some x) (hy : W.findTopic m = some y) (hm : m ≠ n) :
    x.2.tt ≠ y.2.tt := by
  obtain ⟨hi, rfl⟩ := World.findTopic_some hx
  obtain ⟨hj, rfl⟩ := World.findTopic_some hy
  intro e
  exact hm (hd _ (List.mem_of_getElem? hj) _ (List.mem_of_getElem? hi) e.symm)

theorem World.Ok.names_nodup (hW : W.Ok) : (W.regs.map fun r => r.name.val).Nodup := by
  cases hc : W.conn with
  | none =>
      rw [World.regs, hc]
      exact List.nodup_nil
  | some conn =>
      rw [World.regs_conn hc]
      exact (hW.conn conn hc).names

/-- A registered topic is the one the search by its name finds. -/
theorem World.Ok.findTopic_mem (hW : W.Ok) {r : Reg} (hr : r ∈ W.regs) :
    ∃ i, W.findTopic r.name.val = some (i, r) := by
  cases hf : W.findTopic r.name.val with
  | none => exact absurd rfl (World.findTopic_none hf r hr)
  | some x =>
      obtain ⟨hi, hname⟩ := World.findTopic_some (i := x.1) (r := x.2) hf
      have hx : x.2 = r :=
        List.inj_on_of_nodup_map hW.names_nodup (List.mem_of_getElem? hi) hr hname
      exact ⟨x.1, by rw [← hx]⟩

/-- The topic of a record is registered with it. -/
theorem World.topicOf_some (hW : W.Ok) {p : Nat} {n : CStr}
    (h : W.obs.seen.topicOf p = some n) : ∃ i r, W.findTopic n = some (i, r) ∧ p = r.tt := by
  rw [Seen.topicOf, Obs.seen_topics, List.find?_map, Option.map_map] at h
  obtain ⟨r, hr, hn⟩ := Option.map_eq_some_iff.mp h
  obtain ⟨i, hi⟩ := hW.findTopic_mem (List.mem_of_find?_eq_some hr)
  have hfound := List.find?_some hr
  have htt : r.tt = p := of_decide_eq_true hfound
  rw [show r.name.val = n from hn] at hi
  exact ⟨i, r, hi, htt.symm⟩

/-- A record without a topic is that of none. -/
theorem World.topicOf_none {p : Nat} (h : W.obs.seen.topicOf p = none) {n : CStr} {x : Nat × Reg}
    (hf : W.findTopic n = some x) : p ≠ x.2.tt := by
  rw [Seen.topicOf, Obs.seen_topics, List.find?_map, Option.map_map, Option.map_eq_none_iff] at h
  obtain ⟨hi, -⟩ := World.findTopic_some (i := x.1) (r := x.2) hf
  have hne := List.find?_eq_none.mp h _ (List.mem_of_getElem? hi)
  rintro rfl
  exact hne (decide_eq_true rfl)

/-- What one report does to the counters of a record. -/
theorem Counters.of_report (acc : List Message) (served : List Served) (x : Served) (tt : Nat) :
    Counters.of acc (served ++ [x]) tt =
      if x.msg.tt = tt then (Counters.of acc served tt).count (decide (x.err = noError))
      else Counters.of acc served tt := by
  rw [Counters.of, successes_append, failures_append]
  by_cases htt : x.msg.tt = tt
  · by_cases herr : x.err = noError
    · simp [htt, herr, successes, failures, Counters.of, Counters.count]
    · simp [htt, herr, successes, failures, Counters.of, Counters.count]
  · simp [htt, successes, failures, Counters.of]

/-- **A report is a report of the registry.** -/
theorem World.report (hW : W.Ok) (hd : W.Distinct) {x : Served}
    (hle : successes x.msg.tt (served ++ [x]) + failures x.msg.tt (served ++ [x]) ≤
      sentWith x.msg.tt acc) :
    (W.obs.registry acc served).Report (W.obs.seen.delivery x)
      (W.obs.registry acc (served ++ [x])) := by
  rw [Seen.delivery]
  cases ht : W.obs.seen.topicOf x.msg.tt with
  | some n =>
      obtain ⟨i, r, hf, htt⟩ := World.topicOf_some hW ht
      have hlook : (W.obs.registry acc served).topics.lookup n = some (.of acc served r.tt) := by
        rw [World.lookup_registry, hf]
        rfl
      -- the other topics have other records
      have hnext : W.obs.registry acc (served ++ [x]) = { W.obs.registry acc served with
          topics := (W.obs.registry acc served).topics.insert n
            (.of acc (served ++ [x]) r.tt) } := by
        refine Registry.ext rfl rfl (Finmap.ext_lookup fun m => ?_)
        rw [World.lookup_registry]
        by_cases hm : m = n
        · rw [hm, hf, Finmap.lookup_insert]
          rfl
        · rw [Finmap.lookup_insert_of_ne _ hm, World.lookup_registry]
          cases hf' : W.findTopic m with
          | none => rfl
          | some y =>
              have hne : x.msg.tt ≠ y.2.tt := htt ▸ hd.ne hf hf' hm
              rw [Option.map_some, Option.map_some, Counters.of_report, if_neg hne]
      have hlt : successes r.tt served + failures r.tt served < sentWith r.tt acc := by
        refine Nat.lt_of_lt_of_le ?_ (htt ▸ hle)
        rw [← sentWith_served, ← sentWith_served, List.map_append, sentWith_append]
        simp [sentWith, htt]
      rw [hnext, Counters.of_report, if_pos htt]
      exact .counted hlook hlt
  | none =>
      have hsame : W.obs.registry acc (served ++ [x]) = W.obs.registry acc served := by
        refine Registry.ext rfl rfl (Finmap.ext_lookup fun m => ?_)
        rw [World.lookup_registry, World.lookup_registry]
        cases hf : W.findTopic m with
        | none => rfl
        | some y =>
            have hne := World.topicOf_none ht hf
            rw [Option.map_some, Option.map_some, Counters.of_report, if_neg hne]
      rw [hsame]
      exact .stray

/-- Any reports are, while there are no more of them than messages. -/
theorem World.reports (hW : W.Ok) (hd : W.Distinct) {new : List Served}
    (hle : ∀ p, successes p (served ++ new) + failures p (served ++ new) ≤ sentWith p acc) :
    Registry.Reports (W.obs.registry acc served) (new.map W.obs.seen.delivery)
      (W.obs.registry acc (served ++ new)) := by
  induction new using List.reverseRecOn with
  | nil =>
      rw [List.append_nil]
      exact .nil
  | append_singleton new x ih =>
      rw [← List.append_assoc] at hle ⊢
      rw [List.map_append, List.map_singleton]
      refine .snoc (ih fun p => ?_) (World.report hW hd (hle x.msg.tt))
      have hpre : served ++ new <+: served ++ new ++ [x] := List.prefix_append _ _
      exact (Nat.add_le_add (successes_mono hpre) (failures_mono hpre)).trans (hle p)

/-! ### Calls -/

/-- No report is taken back. -/
theorem Effect.lo {F : Prop} {W W' : World} {b b' : View} {c : TableCall} {r : c.Ret}
    (he : Effect F c W b r W' b') : b.lo <+: b'.lo := by
  cases c with
  | setParam name value => rw [he.1.lo]
  | connect brokers => rw [he.1.lo]
  | create topic => rw [he.1.lo]
  | dismiss topic => rw [he.1.lo]
  | dismissAll => rw [he.1.lo]
  | unsetParam name => rw [he.1.lo]
  | getStats topic => exact he.2.2.2.1
  | send topic data =>
      obtain ⟨-, ⟨-, -, i, reg, id, -, rfl⟩ | ⟨-, rfl, -⟩⟩ := he
      · exact List.prefix_refl _
      · exact List.prefix_refl _
  | connected => rw [he.2.1]
  | validateParam name value => rw [he.2.1]
  | getBrokers buflen => rw [he.2.1]
  | describeParams buflen => rw [he.2.1]
  | «exists» topic => rw [he.2.1]

/-- The registry of a world a message was sent to. -/
theorem World.registry_sent (hd : W.Distinct) {n : CStr} {i : Nat} {reg : Reg}
    (hf : W.findTopic n = some (i, reg)) {x : Message} (hx : x.tt = reg.tt) :
    W.obs.registry (acc ++ [x]) served = { W.obs.registry acc served with
      topics := (W.obs.registry acc served).topics.insert n
        { Counters.of acc served reg.tt with sent := sentWith reg.tt acc + 1 } } := by
  refine Registry.ext rfl rfl (Finmap.ext_lookup fun m => ?_)
  rw [World.lookup_registry]
  by_cases hm : m = n
  · rw [hm, hf, Finmap.lookup_insert, Option.map_some, Counters.of, sentWith_append]
    simp [sentWith, hx, Counters.of]
  · rw [Finmap.lookup_insert_of_ne _ hm, World.lookup_registry]
    cases hf' : W.findTopic m with
    | none => rfl
    | some y =>
        have hne : x.tt ≠ y.2.tt := hx ▸ hd.ne hf hf' hm
        rw [Option.map_some, Option.map_some, Counters.of, Counters.of, sentWith_append]
        simp [sentWith, hne]

theorem World.Ok.params_nodup (hW : W.Ok) : (W.obs.params.map Prod.fst).Nodup := by
  have h := hW.names
  rwa [World.obs_params, List.map_map]

/-- Where `n` is the name of no registered topic, a record no message names is added. -/
theorem World.registry_created {W' : World} {n : CStr} (hf : W.findTopic n = none) {reg : Reg}
    (hn : reg.name.val = n) (hacc : sentWith reg.tt acc = 0)
    (hle : successes reg.tt served + failures reg.tt served ≤ sentWith reg.tt acc)
    (ho : W'.obs = { W.obs with topics := W.regs ++ [reg] }) :
    W'.obs.registry acc served = { W.obs.registry acc served with
      topics := (W.obs.registry acc served).topics.insert n .zero } := by
  have hzero : Counters.of acc served reg.tt = .zero := by
    obtain ⟨hs, hfl⟩ := Nat.add_eq_zero_iff.mp (Nat.le_zero.mp (hacc ▸ hle))
    rw [Counters.of, hacc, hs, hfl]
    rfl
  have hnone : firstIdx (fun x : CStr × Counters => decide (x.1 = n)) 0
      (W.obs.counters acc served) = none := by
    rw [Obs.counters, firstIdx_map]
    exact congrArg (Option.map _) hf
  have hadded : W'.obs.counters acc served = W.obs.counters acc served ++ [(n, .zero)] := by
    rw [ho, Obs.counters, List.map_append, List.map_singleton, hn, hzero]
    rfl
  refine Registry.ext (by rw [ho]; rfl) (by rw [ho]; rfl) ?_
  show toFinmap (W'.obs.counters acc served) =
    (toFinmap (W.obs.counters acc served)).insert n Counters.zero
  rw [← toFinmap_put, put_eq_append hnone, hadded]

/-- The topic found is erased. -/
theorem World.registry_dismissed {W' : World} (hW : W.Ok) {n : CStr} {i : Nat} {reg : Reg}
    (hf : W.findTopic n = some (i, reg))
    (ho : W'.obs = { W.obs with topics := swapRemove i W.regs }) :
    W'.obs.registry acc served = { W.obs.registry acc served with
      topics := (W.obs.registry acc served).topics.erase n } := by
  obtain ⟨hi, hn⟩ := World.findTopic_some hf
  have hget : (W.obs.counters acc served)[i]? = some (n, .of acc served reg.tt) := by
    rw [Obs.counters, List.getElem?_map, show W.obs.topics[i]? = some reg from hi, Option.map_some,
      hn]
  have hremoved : W'.obs.counters acc served = swapRemove i (W.obs.counters acc served) := by
    rw [ho, Obs.counters, Obs.counters, ← map_swapRemove]
    rfl
  have hnodup : ((W.obs.counters acc served).map Prod.fst).Nodup := by
    rw [Obs.counters, List.map_map]
    exact hW.names_nodup
  refine Registry.ext (by rw [ho]; rfl) (by rw [ho]; rfl) ?_
  show toFinmap (W'.obs.counters acc served) = (toFinmap (W.obs.counters acc served)).erase n
  rw [hremoved, toFinmap_swapRemove hnodup hget]

/-! ### The step of each call -/

section step

variable {F : Prop} {W' : World} {b b' : View}

theorem Effect.step_validateParam {name value : Option CStr} {r : Except String Unit}
    (he : Effect F (.validateParam name value) W b r W' b') (hF : ¬ F) :
    (W.obs.registry acc served).step (.validateParam name value) =
      some (W'.obs.registry acc served, statusOf r) := by
  obtain ⟨rfl, -, hok, hno⟩ := he
  cases r with
  | error text =>
      have hbad : zstr name = true ∨ value = none := by
        rcases hno (by simp) with h | h | h
        · exact Or.inl h
        · exact Or.inr h
        · exact absurd h hF
      rw [Registry.step, if_pos hbad]
      rfl
  | ok u =>
      obtain ⟨hz, hv⟩ := hok rfl
      obtain ⟨v, rfl⟩ := Option.isSome_iff_exists.mp hv
      rw [Registry.step, hz, if_neg (by simp)]
      rfl

theorem Effect.step_setParam {name value : Option CStr} {r : Except String Unit}
    (he : Effect F (.setParam name value) W b r W' b') (hF : ¬ F) :
    (W.obs.registry acc served).step (.setParam name value) =
      some (W'.obs.registry acc served, statusOf r) := by
  obtain ⟨-, hok, hno⟩ := he
  cases r with
  | error text =>
      obtain ⟨ho, hwhy⟩ := hno (by simp)
      rw [ho.obs]
      cases name with
      | none => rfl
      | some n =>
          cases value with
          | none => rfl
          | some v =>
              have hbad : zstr (some n) = true ∨ W.conn.isSome = true := by
                rcases hwhy with h | h | h | h
                · exact Or.inl h
                · cases h
                · exact Or.inr h
                · exact absurd h hF
              rw [Registry.step, Registry.setParam, World.producer_registry, if_pos hbad]
              rfl
  | ok u =>
      obtain ⟨n, v, rfl, rfl, hz, hset⟩ := hok rfl
      obtain ⟨hconn, ho⟩ := hset.ok rfl
      rw [Registry.step, Registry.setParam, World.producer_registry, hz, hconn, if_neg (by simp),
        ho]
      refine congrArg some (Prod.ext (Registry.ext rfl ?_ rfl) rfl)
      exact (toFinmap_put n v W.obs.params).symm

theorem Effect.step_connect {brokers : Option CStr} {r : Except String Unit}
    (he : Effect F (.connect brokers) W b r W' b') (hF : ¬ F) :
    (W.obs.registry acc served).step (.connect brokers) =
      some (W'.obs.registry acc served, statusOf r) := by
  obtain ⟨-, hok, hno, -⟩ := he
  cases r with
  | error text =>
      obtain ⟨ho, hwhy⟩ := hno (by simp)
      rw [ho.obs]
      cases brokers with
      | none => rfl
      | some bs =>
          have hbad : zstr (some bs) = true ∨ W.conn.isSome = true := by
            rcases hwhy with h | h | h
            · exact Or.inl h
            · exact Or.inr h
            · exact absurd h hF
          rw [Registry.step, Registry.connect, World.producer_registry, if_pos hbad]
          rfl
  | ok u =>
      obtain ⟨bs, rfl, hz, hcon⟩ := hok rfl
      obtain ⟨hconn, -, p, rfl, -, ho⟩ := hcon.ok rfl
      rw [Registry.step, Registry.connect, World.producer_registry, hz, hconn, if_neg (by simp), ho]
      rfl

theorem Effect.step_create {topic : Option CStr} {r : Int}
    (he : Effect F (.create topic) W b r W' b') (hF : ¬ F)
    (hle : ∀ p, successes p served + failures p served ≤ sentWith p b.acc) :
    (W.obs.registry b.acc served).step (.create topic) =
      some (W'.obs.registry b.acc served, r) := by
  obtain ⟨-, hcr, hwhy⟩ := he
  by_cases hr : r = 0
  · obtain ⟨n, rfl, ⟨⟨x, hx⟩, ho⟩ | ⟨hf, hconn, hz, reg, hn, hacc, ho⟩⟩ := hcr.ok hr
    · have hmem : n ∈ (W.obs.registry b.acc served).topics :=
        World.mem_registry.mpr (by rw [hx]; rfl)
      rw [Registry.step, Registry.create, if_pos hmem, ho, hr]
    · have hmem : n ∉ (W.obs.registry b.acc served).topics := by
        rw [World.mem_registry, hf]
        exact Bool.false_ne_true
      have hgo : ¬ (zstr (some n) = true ∨ (W.obs.registry b.acc served).producer = none) := by
        rw [World.producer_registry_none, hz]
        rintro (e | e)
        · cases e
        · rw [e] at hconn
          cases hconn
      have hfresh : sentWith reg.tt b.acc = 0 := by
        rw [sentWith, List.countP_eq_zero]
        exact fun m hm => by simpa using hacc m hm
      rw [Registry.step, Registry.create, if_neg hmem, if_neg hgo, hr]
      refine congrArg some (Prod.ext ?_ rfl)
      exact (World.registry_created hf hn hfresh (hle reg.tt) ho).symm
  · obtain ⟨rfl, ho, hf⟩ := hcr.fail hr
    rw [ho.obs]
    cases topic with
    | none => rfl
    | some n =>
        have hmem : n ∉ (W.obs.registry b.acc served).topics := by
          rw [World.mem_registry, show W.findTopic n = none from hf]
          exact Bool.false_ne_true
        have hbad : zstr (some n) = true ∨ (W.obs.registry b.acc served).producer = none := by
          rw [World.producer_registry_none]
          rcases hwhy hr with h | h | h
          · exact absurd h hF
          · exact Or.inr h
          · exact Or.inl h
        rw [Registry.step, Registry.create, if_neg hmem, if_pos hbad]

theorem Effect.step_send {topic : Option CStr} {data : List UInt8} {r : Int}
    (he : Effect F (.send topic data) W b r W' b') (hF : ¬ F) (hd : W.Distinct) :
    (W.obs.registry b.acc served).step (.send topic data) =
      some (W'.obs.registry b'.acc served, r) := by
  obtain ⟨rfl, ⟨hr, -, i, reg, id, hf, rfl⟩ | ⟨hr, rfl, hno⟩⟩ := he
  · obtain ⟨n, rfl, hx⟩ := Option.bind_eq_some_iff.mp hf
    have hlook : (W'.obs.registry b.acc served).topics.lookup n =
        some (.of b.acc served reg.tt) := by
      rw [World.lookup_registry, hx]
      rfl
    rw [Registry.step, Registry.send, hlook, hr]
    exact congrArg some (Prod.ext (World.registry_sent hd hx rfl).symm rfl)
  · have hf : topic.bind W'.findTopic = none := hno.resolve_right hF
    rw [hr]
    cases topic with
    | none => rfl
    | some n =>
        rw [Registry.step, Registry.send, World.lookup_registry,
          show W'.findTopic n = none from hf]
        rfl

theorem Effect.step_dismiss {topic : Option CStr} {r : Int}
    (he : Effect F (.dismiss topic) W b r W' b') (hW : W.Ok) :
    (W.obs.registry acc served).step (.dismiss topic) =
      some (W'.obs.registry acc served, r) := by
  obtain ⟨-, ⟨n, rfl, -, hdis⟩ | ⟨hz, rfl, rfl⟩⟩ := he
  · by_cases hr : r = 0
    · obtain ⟨i, reg, hf, ho⟩ := hdis.ok hr
      have hmem : n ∈ (W.obs.registry acc served).topics :=
        World.mem_registry.mpr (by rw [hf]; rfl)
      rw [Registry.step, Registry.dismiss, if_pos hmem, hr]
      exact congrArg some (Prod.ext (World.registry_dismissed hW hf ho).symm rfl)
    · obtain ⟨rfl, ho, hf⟩ := hdis.fail hr
      have hmem : n ∉ (W.obs.registry acc served).topics := by
        rw [World.mem_registry, hf]
        exact Bool.false_ne_true
      rw [Registry.step, Registry.dismiss, if_neg hmem, ho.obs]
  · cases topic with
    | none => rfl
    | some n =>
        have hmem : n ∉ (W'.obs.registry acc served).topics := by
          rw [World.mem_registry, hW.findTopic_zstr hz]
          exact Bool.false_ne_true
        rw [Registry.step, Registry.dismiss, if_neg hmem]

theorem Effect.step_unsetParam {name : Option CStr} {r : Int}
    (he : Effect F (.unsetParam name) W b r W' b') (hW : W.Ok) :
    (W.obs.registry acc served).step (.unsetParam name) =
      some (W'.obs.registry acc served, r) := by
  obtain ⟨-, ⟨n, rfl, -, hun⟩ | ⟨hz, hr, rfl⟩⟩ := he
  · by_cases hr : r = 0
    · obtain ⟨hconn, i, x, hf, ho⟩ := hun.ok hr
      obtain ⟨-, hi, hx⟩ := firstIdx_some hf
      have hmem : n ∈ (W.obs.registry acc served).params := by
        rw [Obs.registry, mem_toFinmap, ← of_decide_eq_true hx]
        exact List.mem_map_of_mem (List.mem_of_getElem? hi)
      have hgone : (W.obs.registry acc served).producer = none :=
        World.producer_registry_none.mpr hconn
      rw [Registry.step, Registry.unsetParam, if_pos ⟨hmem, hgone⟩, hr, ho]
      refine congrArg some (Prod.ext (Registry.ext rfl ?_ rfl) rfl)
      have hget : W.obs.params[i]? = some (n, x.2) := by
        rw [show i = i - 0 from rfl, hi, ← of_decide_eq_true hx]
      exact (toFinmap_swapRemove hW.params_nodup hget).symm
    · obtain ⟨rfl, ho, hwhy⟩ := hun.fail hr
      rw [ho.obs, Registry.step, Registry.unsetParam, if_neg]
      rintro ⟨hmem, hgone⟩
      rw [World.producer_registry_none] at hgone
      rcases hwhy with h | h
      · rw [hgone] at h
        cases h
      · obtain ⟨x, hx, rfl⟩ := List.mem_map.mp (mem_toFinmap.mp hmem)
        exact h x hx rfl
  · rw [hr]
    cases name with
    | none => rfl
    | some n =>
        rw [Registry.step, Registry.unsetParam, if_neg]
        rintro ⟨hmem, -⟩
        obtain ⟨x, hx, rfl⟩ := List.mem_map.mp (mem_toFinmap.mp hmem)
        obtain ⟨p, hp, rfl⟩ := List.mem_map.mp hx
        exact Bool.false_ne_true ((hW.nonempty p hp).symm.trans hz)

theorem Effect.step_getBrokers {buflen : Nat} {r : Int × List UInt8}
    (he : Effect F (.getBrokers buflen) W b r W' b') :
    (W.obs.registry acc served).step (.getBrokers buflen) =
      some (W'.obs.registry acc served, r.1) := by
  obtain ⟨rfl, -, rfl⟩ := he
  rw [Registry.step]
  by_cases hb : buflen = 0
  · simp [hb]
  · cases hp : W'.obs.producer with
    | none => simp [hb, Obs.registry, Obs.brokers, hp]
    | some p => simp [hb, Obs.registry, Obs.brokers, hp]

theorem Effect.step_describeParams {buflen : Nat} {r : Int × List UInt8}
    (he : Effect F (.describeParams buflen) W b r W' b') (hW : W.Ok) :
    (W.obs.registry acc served).step (.describeParams buflen) =
      some (W'.obs.registry acc served, r.1) := by
  obtain ⟨rfl, -, rfl⟩ := he
  rw [Registry.step, Obs.registry, card_keys_toFinmap hW.params_nodup]
  by_cases hb : buflen = 0
  · simp [hb]
  · simp [hb, Obs.describe]

end step

/-- **A call is a step of the registry**, among the reports `new`. -/
theorem Effect.does {F : Prop} {W' : World} {b b' : View} {c : TableCall} {r : c.Ret}
    {new : List Served} (he : Effect F c W b r W' b') (hF : ¬ F) (hW : W.Ok) (hd : W.Distinct)
    (hlo : b'.lo <+: b.lo ++ new)
    (hle : ∀ p, successes p (b.lo ++ new) + failures p (b.lo ++ new) ≤ sentWith p b'.acc) :
    (W.obs.registry b.acc b.lo).Does c r (new.map W.obs.seen.delivery)
      (W'.obs.registry b'.acc (b.lo ++ new)) := by
  have hmeanwhile : ∀ s xs, s ++ xs <+: b.lo ++ new →
      Registry.Reports (W.obs.registry b'.acc s) (xs.map W.obs.seen.delivery)
        (W.obs.registry b'.acc (s ++ xs)) := by
    intro s xs hs
    refine World.reports hW hd fun p => ?_
    exact (Nat.add_le_add (successes_mono hs) (failures_mono hs)).trans (hle p)
  -- a call that sends nothing comes after the reports
  have hquiet : b'.acc = b.acc → (W.obs.registry b.acc (b.lo ++ new)).step c =
      some (W'.obs.registry b.acc (b.lo ++ new), c.returned r) →
      (W.obs.registry b.acc b.lo).Does c r (new.map W.obs.seen.delivery)
        (W'.obs.registry b'.acc (b.lo ++ new)) := by
    intro hacc hstep
    rw [hacc] at hmeanwhile ⊢
    have hdoes := Registry.Does.step (hmeanwhile _ _ (List.prefix_refl _)) hstep .nil
    rwa [List.append_nil] at hdoes
  cases c with
  | connected =>
      obtain ⟨rfl, rfl, rfl⟩ := he
      exact hquiet rfl (by simp [Registry.step, TableCall.returned, Obs.registry])
  | validateParam name value => exact hquiet (by rw [he.2.1]) (he.step_validateParam hF)
  | setParam name value => exact hquiet he.1.acc (he.step_setParam hF)
  | connect brokers => exact hquiet he.1.acc (he.step_connect hF)
  | getBrokers buflen => exact hquiet (by rw [he.2.1]) he.step_getBrokers
  | describeParams buflen => exact hquiet (by rw [he.2.1]) (he.step_describeParams hW)
  | «exists» topic =>
      obtain ⟨rfl, rfl, rfl⟩ := he
      refine hquiet rfl ?_
      rw [Registry.step, World.find_registry, Option.isSome_map]
      rfl
  | create topic => exact hquiet he.1.acc (he.step_create hF fun p => he.1.acc ▸ hle p)
  | send topic data =>
      -- the message is sent first, and may be reported at once
      have hafter := hmeanwhile b.lo new (List.prefix_refl _)
      have hsame : W' = W := he.1
      subst hsame
      exact .step .nil (he.step_send hF hd) hafter
  | dismiss topic => exact hquiet he.1.acc (he.step_dismiss hW)
  | dismissAll =>
      refine hquiet he.1.acc ?_
      rw [he.2.1]
      rfl
  | unsetParam name => exact hquiet he.1.acc (he.step_unsetParam hW)
  | getStats topic =>
      obtain ⟨rfl, hacc, -, hpre, hread⟩ := he
      rw [hacc] at hmeanwhile ⊢
      -- the reports before the first read, between the two, and after the second
      obtain ⟨s₁, x₁, x₂, x₃, hs₁, hs₂, rfl, hr⟩ : ∃ s₁ x₁ x₂ x₃, s₁ = b.lo ++ x₁ ∧
          b'.lo = s₁ ++ x₂ ∧ new = x₁ ++ (x₂ ++ x₃) ∧
          r = ((W'.obs.registry b.acc s₁).reading (·.transferred) topic,
            (W'.obs.registry b.acc b'.lo).reading (·.failed) topic) := by
        simp only [Registry.reading, World.find_registry]
        cases hf : topic.bind W'.findTopic with
        | none =>
            rw [hf] at hread
            obtain ⟨x₁, h₁⟩ := hpre
            obtain ⟨x₃, h₃⟩ := hlo
            rw [← h₁, List.append_assoc] at h₃
            exact ⟨b'.lo, x₁, [], x₃, h₁.symm, (List.append_nil _).symm,
              (List.append_cancel_left h₃).symm, hread⟩
        | some x =>
            rw [hf] at hread
            obtain ⟨s₁, ⟨x₁, h₁⟩, ⟨x₂, h₂⟩, hr⟩ := hread
            obtain ⟨x₃, h₃⟩ := hlo
            rw [← h₂, ← h₁, List.append_assoc, List.append_assoc] at h₃
            exact ⟨s₁, x₁, x₂, x₃, h₁.symm, h₂.symm, (List.append_cancel_left h₃).symm, hr⟩
      have h₁ := hmeanwhile b.lo x₁ (by rw [← List.append_assoc]; exact List.prefix_append _ _)
      have h₂ := hmeanwhile (b.lo ++ x₁) x₂ (by
        rw [← List.append_assoc, ← List.append_assoc]; exact List.prefix_append _ _)
      have h₃ := hmeanwhile (b.lo ++ x₁ ++ x₂) x₃ (by simp)
      rw [hs₂, hs₁] at hr
      rw [List.map_append, List.map_append,
        show b.lo ++ (x₁ ++ (x₂ ++ x₃)) = b.lo ++ x₁ ++ x₂ ++ x₃ by simp]
      exact .getStats h₁ h₂ hr h₃

/-! ### Runs -/

/-- No more reports than messages, of any record. -/
theorem Inv.reported_le {T : Tab} {d : Flow} (h : Inv T d) (p : Nat) :
    successes p d.served + failures p d.served ≤ sentWith p d.accepted := by
  rw [h.balance p]
  exact Nat.le_add_right _ _

/-- A turn of a run: a call from start to end, or a step of librdkafka. -/
inductive Turn where
  | call (t : Nat) (c : TableCall) (course : Course)
  | env (e : Ev)

/-- What is answered from outside is of the kind `allows`. -/
def Turn.Allowed (allows : Ans → Prop) : Turn → Prop
  | .call _ _ course => Conc.Logic.Allowed allows course
  | .env _           => True

/-- The reports counted on the way from `d` to `d'`, by the topics of `T`. -/
def Tab.deliveries (T : Tab) (d d' : Flow) : List Delivery :=
  (d'.served.drop d.served.length).map T.seen.delivery

/-- What a turn shows, and the state it leaves. -/
def Turn.play : Turn → Tab → Flow → Option (List Registry.Entry × Tab × Flow)
  | .call t c course, T, d => (exec iface t (tableProg c) course T d).map fun x =>
      ([.call c x.1 (T.deliveries d x.2.2)], x.2.1, x.2.2)
  | .env e, T, d => (e.act T d).map fun d' => ((T.deliveries d d').map .report, T, d')

/-- Turns, one after another. -/
def playing : List Turn → Tab → Flow → Option (List Registry.Entry × Tab × Flow)
  | [],      T, d => some ([], T, d)
  | x :: xs, T, d =>
      (x.play T d).bind fun y => (playing xs y.2.1 y.2.2).map fun z => (y.1 ++ z.1, z.2)

theorem Tab.deliveries_append (T : Tab) {d d' : Flow} {new : List Served}
    (h : d'.served = d.served ++ new) : T.deliveries d d' = new.map T.seen.delivery := by
  rw [deliveries, h, List.drop_left]

theorem Registry.Runs.reports {es : List Entry} {A A' : Registry} {xs : List Delivery}
    (h : Runs es A) (hx : Reports A xs A') : Runs (es ++ xs.map .report) A' := by
  induction hx with
  | nil => rwa [List.map_nil, List.append_nil]
  | snoc _ hx ih =>
      rw [List.map_append, List.map_singleton, ← List.append_assoc]
      exact .report ih hx

/-- **A turn is one of the registry.** -/
theorem Turn.registry {x : Turn} {T T' : Tab} {d d' : Flow} {es es' : List Registry.Entry}
    (hok : x.Allowed Ans.Granted) (hi : Inv T d) (hT : TableInv T)
    (hA : Registry.Runs es (T.registry d)) (h : x.play T d = some (es', T', d')) :
    Inv T' d' ∧ TableInv T' ∧ Registry.Runs (es ++ es') (T'.registry d') := by
  obtain ⟨W, hW, hT⟩ := hT
  rw [hT.registry] at hA
  cases x with
  | call t c course =>
      obtain ⟨⟨r, T₁, d₁⟩, he, e⟩ := Option.map_eq_some_iff.mp h
      cases e
      obtain ⟨hi', W', b', hT', hW', hb, -, heff⟩ := exec_effect hi hT hW hok he
      obtain ⟨new, hnew⟩ := heff.lo.trans hb.lo
      have hle := hi'.reported_le
      rw [hb.acc, ← hnew] at hle
      have hdoes := heff.does not_mayFail_granted hW hT.distinct (hnew ▸ hb.lo) hle
      rw [hnew, ← hT.seen] at hdoes
      rw [hT'.registry, hb.acc, T.deliveries_append hnew.symm]
      exact ⟨hi', ⟨W', hW', hT'⟩, .call hA hdoes⟩
  | env e =>
      obtain ⟨d₁, he, e⟩ := Option.map_eq_some_iff.mp h
      cases e
      obtain ⟨⟨new, hnew⟩, hacc⟩ := Ev.act_messages he
      have hi' := hi.env he
      have hle := hi'.reported_le
      rw [hacc, ← hnew] at hle
      have hreports := World.reports hW hT.distinct hle
      rw [hnew, ← hT.seen] at hreports
      rw [hT.registry, hacc, T.deliveries_append hnew.symm]
      exact ⟨hi', ⟨W, hW, hT⟩, hA.reports hreports⟩

/-- **A run is a run of the registry.** -/
theorem playing_registry {xs : List Turn} {T T' : Tab} {d d' : Flow} {es es' : List Registry.Entry}
    (hok : ∀ x ∈ xs, x.Allowed Ans.Granted) (hi : Inv T d) (hT : TableInv T)
    (hA : Registry.Runs es (T.registry d)) (h : playing xs T d = some (es', T', d')) :
    Inv T' d' ∧ TableInv T' ∧ Registry.Runs (es ++ es') (T'.registry d') := by
  induction xs generalizing T d es es' with
  | nil =>
      cases h
      rw [List.append_nil]
      exact ⟨hi, hT, hA⟩
  | cons x xs ih =>
      obtain ⟨hx, hxs⟩ := List.forall_mem_cons.mp hok
      obtain ⟨⟨es₁, T₁, d₁⟩, h₁, h₂⟩ := Option.bind_eq_some_iff.mp h
      obtain ⟨⟨es₂, T₂, d₂⟩, h₃, e⟩ := Option.map_eq_some_iff.mp h₂
      cases e
      obtain ⟨hi₁, hT₁, hA₁⟩ := x.registry hx hi hT hA h₁
      rw [← List.append_assoc]
      exact ih hxs hi₁ hT₁ hA₁ h₃

/-! ### The arrays -/

/-- The arrays are well formed: their names are unique and not empty, no count passes the capacity,
and there are topics only while connected. -/
structure Tab.WellFormed (T : Tab) : Prop where
  paramNames : (T.seen.params.map Prod.fst).Nodup
  paramsNonempty : ∀ x ∈ T.seen.params, zstr (some x.1) = false
  topicNames : (T.seen.topics.map entryName).Nodup
  topicsNonempty : ∀ e ∈ T.seen.topics, zstr (some (entryName e)) = false
  params : T.kt.params.Ok paramSize
  topics : T.kt.topics.Ok topicSize
  retired : T.kt.retired.Ok topicSize
  connected : T.seen.connected = false → T.seen.topics = []

theorem Obs.names (o : Obs) : o.seen.topics.map entryName = o.topics.map fun r => r.name.val := by
  rw [Obs.seen, List.map_map]
  rfl

theorem World.Ok.nonempty_reg (hW : W.Ok) : ∀ r ∈ W.regs, zstr (some r.name.val) = false := by
  intro r hr
  cases hc : W.conn with
  | none =>
      rw [World.regs, hc] at hr
      cases hr
  | some conn =>
      rw [World.regs_conn hc] at hr
      exact (hW.conn conn hc).nonempty r hr

theorem Tab.Is.wellFormed {T : Tab} (h : T.Is W.cells) (hW : W.Ok) : T.WellFormed := by
  have hkt : T.kt = W.kt := h.kt
  constructor
  · rw [h.seen]
    exact hW.params_nodup
  · rw [h.seen]
    intro x hx
    obtain ⟨p, hp, rfl⟩ := List.mem_map.mp hx
    exact hW.nonempty p hp
  · rw [h.seen, Obs.names]
    exact hW.names_nodup
  · rw [h.seen]
    intro e he
    obtain ⟨r, hr, rfl⟩ := List.mem_map.mp he
    exact hW.nonempty_reg r hr
  · rw [hkt]
    exact hW.params
  · rw [hkt, World.kt]
    cases hc : W.conn with
    | none => exact CArray.ok_null _
    | some conn => exact (hW.conn conn hc).topics.map _
  · rw [hkt, World.kt]
    cases hc : W.conn with
    | none => exact CArray.ok_null _
    | some conn => exact (hW.conn conn hc).retired.map _
  · rw [h.seen]
    intro hno
    have hc : W.conn = none := by
      simpa [Obs.seen, World.obs] using hno
    simp [Obs.seen, World.obs, World.regs, hc]

/-- What is left of the topics when the one at `i` goes: those of other names. -/
theorem World.Ok.mem_swapRemove (hW : W.Ok) {n : CStr} {i : Nat} {reg : Reg}
    (hf : W.findTopic n = some (i, reg)) (r : Reg) :
    r ∈ swapRemove i W.regs ↔ r ∈ W.regs ∧ r.name.val ≠ n := by
  obtain ⟨hi, rfl⟩ := World.findTopic_some hf
  obtain ⟨hlt, hreg⟩ := List.getElem?_eq_some_iff.mp hi
  have hperm := perm_cons_swapRemove hlt
  rw [hreg] at hperm
  have hnodup := (hperm.map fun r => r.name.val).nodup_iff.mp hW.names_nodup
  obtain ⟨hgone, -⟩ := List.nodup_cons.mp hnodup
  rw [hperm.mem_iff, List.mem_cons]
  constructor
  · intro hr
    exact ⟨Or.inr hr, fun e => hgone (List.mem_map.mpr ⟨r, hr, e⟩)⟩
  · rintro ⟨rfl | hr, hne⟩
    · exact absurd rfl hne
    · exact hr

/-- **A dismissal leaves every other topic**: its record, its name, its handle. -/
theorem dismiss_exactly {T T' : Tab} {d d' : Flow} {t : Nat} {n : CStr} {course : Course} {r : Int}
    (hi : Inv T d) (hT : TableInv T)
    (he : exec iface t (tableProg (.dismiss (some n))) course T d = some (r, T', d')) :
    ∀ e, e ∈ T'.seen.topics ↔ e ∈ T.seen.topics ∧ entryName e ≠ n := by
  obtain ⟨W, hW, hT⟩ := hT
  obtain ⟨-, W', b', hT', -, -, -, -, heff⟩ :=
    exec_effect hi hT hW (Conc.Logic.allowed_any course) he
  have hkept : W'.obs = W.obs → W.findTopic n = none →
      ∀ e, e ∈ T'.seen.topics ↔ e ∈ T.seen.topics ∧ entryName e ≠ n := by
    intro ho hf e
    rw [hT'.seen, hT.seen, ho]
    refine ⟨fun hmem => ⟨hmem, ?_⟩, fun hmem => hmem.1⟩
    obtain ⟨r, hr, rfl⟩ := List.mem_map.mp hmem
    exact World.findTopic_none hf r hr
  rcases heff with ⟨n', hn, -, hdis⟩ | ⟨hz, -, rfl⟩
  · cases hn
    by_cases hr : r = 0
    · obtain ⟨i, reg, hf, ho⟩ := hdis.ok hr
      intro e
      rw [hT'.seen, hT.seen, ho]
      constructor
      · intro hmem
        obtain ⟨r, hr, rfl⟩ := List.mem_map.mp hmem
        obtain ⟨hr, hne⟩ := (hW.mem_swapRemove hf r).mp hr
        exact ⟨List.mem_map_of_mem hr, hne⟩
      · rintro ⟨hmem, hne⟩
        obtain ⟨r, hr, rfl⟩ := List.mem_map.mp hmem
        exact List.mem_map_of_mem ((hW.mem_swapRemove hf r).mpr ⟨hr, hne⟩)
    · obtain ⟨-, ho, hf⟩ := hdis.fail hr
      exact hkept ho.obs hf
  · exact hkept rfl (hW.findTopic_zstr hz)

/-- **The registry refines a machine of finite maps.**  What a run shows, the results of its calls
among the reports that came meanwhile, is what a run of the registry shows, and what it left is the
registry's state; the arrays are well formed; and a dismissal leaves every other topic as it was. -/
theorem registry_refines {xs : List Turn} {es : List Registry.Entry} {T : Tab} {d : Flow}
    (hok : ∀ x ∈ xs, x.Allowed Ans.Granted)
    (h : playing xs Tab.init Flow.init = some (es, T, d)) :
    Registry.Runs es (T.registry d) ∧ T.WellFormed ∧
      ∀ t n course r T' d', exec iface t (tableProg (.dismiss (some n))) course T d =
        some (r, T', d') → ∀ e, e ∈ T'.seen.topics ↔ e ∈ T.seen.topics ∧ entryName e ≠ n := by
  obtain ⟨hi, hT, hA⟩ := playing_registry hok inv_init
    ⟨World.init, World.ok_init, World.is_init⟩ Registry.Runs.nil h
  refine ⟨hA, ?_, fun t n course r T' d' he => dismiss_exactly hi hT he⟩
  obtain ⟨W, hW, hT⟩ := hT
  exact hT.wellFormed hW

/-- What a call returned, and the reports an entry shows. -/
def Registry.Entry.shown : Registry.Entry → Option Int × List Delivery
  | .report x    => (none, [x])
  | .call c r xs => (some (c.returned r), xs)

/-- The counters an entry shows. -/
def Registry.Entry.counters : Registry.Entry → List UInt32
  | .call (.getStats _) r _ => [r.1, r.2]
  | _                       => []

/-- Two sessions: one connects and sends to a topic, the other dismisses another topic.  The first
message is reported between two calls, the second while the counters are read. -/
def twoTopics : List Turn :=
  [.call 0 (.connect (some (.lit "b"))) (quietly 20),
   .call 0 (.create (some (.lit "t"))) (quietly 15),
   .call 1 (.create (some (.lit "u"))) (quietly 16),
   .call 0 (.send (some (.lit "t")) [104, 105]) (quietly 11),
   .call 0 (.send (some (.lit "t")) [106]) (quietly 11),
   .env (.cbEnter 0 (.poll 0) noError), .env (.cbCount 0 5),
   .call 1 (.dismiss (some (.lit "u"))) (quietly 24),
   .call 1 (.getStats (some (.lit "t"))) (quietly 9 ++
     [.env (.cbEnter 1 (.poll 0) (-195)), .env (.cbCount 1 6)] ++ quietly 3)]

/-- What it shows is the registry's. -/
theorem twoTopics_refines : ∃ es T d, Registry.Runs es (Tab.registry T d) ∧
    es.map (·.shown) = [(some 0, []), (some 0, []), (some 0, []), (some 2, []), (some 1, []),
      (none, [⟨some (.lit "t"), true⟩]), (some 0, []), (some 0, [⟨some (.lit "t"), false⟩])] ∧
    es.flatMap (·.counters) = [1, 1] := by
  have hrun : (playing twoTopics Tab.init Flow.init).map
      (fun x => (x.1.map (·.shown), x.1.flatMap (·.counters))) = some
        ([(some 0, []), (some 0, []), (some 0, []), (some 2, []), (some 1, []),
          (none, [⟨some (.lit "t"), true⟩]), (some 0, []), (some 0, [⟨some (.lit "t"), false⟩])],
        [1, 1]) := by
    decide +kernel
  obtain ⟨⟨es, T, d⟩, hx, hshown⟩ := Option.map_eq_some_iff.mp hrun
  obtain ⟨hentries, hcounters⟩ := Prod.mk.inj hshown
  have hok : ∀ x ∈ twoTopics, x.Allowed Ans.Granted := by
    simp [twoTopics, Turn.Allowed, Allowed, quietly, Ans.Granted]
  exact ⟨es, T, d, (registry_refines hok hx).1, hentries, hcounters⟩

end TrigEmit
