import TrigEmitKafka.Results.Failures
import TrigEmitKafka.Rules.Quick
import TrigEmitKafka.Rules.Sessions

/-!
# Results — a send

* `send_exactly_once`: from every table state, whatever librdkafka answers, `kafka_send` returns a
  value that is not negative exactly when one message of it was accepted, the message it was
  asked to send; and it reports failure exactly when none was.
* `lets_go_iff`: a sender that has entered `kafka_table_send` lets go of the table lock exactly when
  there is no such topic, or `rd_kafka_produce` tells it something else than that the queue is full
  at some time.
-/

namespace TrigEmit

open Conc (Cfg Fed Label Leads LetsGo Lock Prog Solo Told advance exec exec_cons exec_nil exec_ret
  letsGo_of_after not_letsGo solo_after told_of_straight)
open Conc.Logic (alone)

/-- One message was accepted: `msg`, to the topic. -/
structure SentOnce (s : TableState) (topic : CStr) (msg : List UInt8) (T' : Tab) (d' : Flow)
    (m : Message) : Prop where
  one : d'.accepted = s.fr.accepted ++ [m]
  payload : m.payload = msg
  key : m.key = none
  /-- Its opaque is the record of the topic, its handle the record's. -/
  record : ∃ v, (m.tt, some v) ∈ T'.seen.topics ∧ Named topic (m.tt, some v) ∧ v.rkt = some m.rkt
  handle : ∃ h, T'.rkts.get m.rkt = some h ∧ h.name = topic

/-- The end of `kafka_send`, alone. -/
theorem sendMessage_alone {s : TableState} {T T' : Tab} {d d' : Flow} {W : World} {t : Nat}
    {topic : CStr} {msg : List UInt8} {courses : List (Conc.Item Course Ev)} {r : SqlInt}
    (hi : Inv T d) (hT : T.Is W.cells) (hW : W.Ok) (hacc : d.accepted = s.fr.accepted)
    (he : exec tableIface t (sendMessage topic msg) courses T d = some (r, T', d')) :
    (r = ⟨msg.length, false⟩ ∧ ∃ m, SentOnce s topic msg T' d' m) ∨
      (r = .failed ∧ d'.accepted = s.fr.accepted) := by
  obtain ⟨d₁, x, T₁, d₂, W₁, b₁, rest, hacc₁, -, hT₁, -, hb, ⟨rfl, heff⟩, -, hret⟩ :=
    session_call hi hT hW (allowedAll_any courses) he
  have hacc₂ : d₂.accepted = b₁.acc := hb.acc
  rcases heff with ⟨hx, hlen, i, reg, id, hf, rfl⟩ | ⟨hx, rfl, -⟩
  · obtain ⟨conn, hc⟩ := World.conn_of_findTopic hf
    have hreg := World.mem_of_findTopic hc hf
    have hname := (World.findTopic_some hf).2
    have hhandle : T₁.rkts.get reg.rkt = some ⟨conn.rk, reg.name.val⟩ :=
      hT₁.rkts.get (World.handle_mem hc hreg)
    rw [hx, cInt_of_le hlen, if_neg (by omega)] at hret
    obtain ⟨rfl, rfl, hsteps⟩ := exec_ret hret
    refine Or.inl ⟨rfl, ⟨id, reg.rkt, none, msg, reg.tt⟩, ?_, rfl, rfl, ?_, _, hhandle, hname⟩
    · rw [accepted_envSteps hsteps, hacc₂]
      show d₁.accepted ++ _ = _
      rw [hacc₁, hacc]
    · have hrec := hname ▸ Obs.named_record W₁.obs reg
      refine ⟨_, ?_, hrec, rfl⟩
      rw [hT₁.seen]
      exact List.mem_map_of_mem (by rw [World.obs, World.regs_conn hc]; exact hreg)
  · rw [hx, if_pos (show (-1 : Int) < 0 by decide)] at hret
    obtain ⟨rfl, rfl, hsteps⟩ := exec_ret hret
    refine Or.inr ⟨rfl, ?_⟩
    rw [accepted_envSteps hsteps, hacc₂]
    exact hacc₁.trans hacc

/-! ### Its calls return -/

theorem World.findTopic_eq_none_iff {W : World} {topic : CStr} :
    W.findTopic topic = none ↔ ∀ e ∈ W.obs.seen.topics, ¬ Named topic e := by
  refine ⟨World.not_named_of_findTopic, fun hno => ?_⟩
  rcases Option.eq_none_or_eq_some (W.findTopic topic) with hf | ⟨⟨i, reg⟩, hf⟩
  · exact hf
  · obtain ⟨hi, hname⟩ := World.seen_of_findTopic hf
    exact absurd hname (hno _ (List.mem_of_getElem? hi))

theorem World.findTopic_of_named {W : World} {topic : CStr}
    (h : ∃ e ∈ W.obs.seen.topics, Named topic e) : ∃ x, W.findTopic topic = some x := by
  refine Option.ne_none_iff_exists'.mp fun hnone => ?_
  obtain ⟨e, he, hname⟩ := h
  exact World.findTopic_eq_none_iff.mp hnone e he hname

/-- `kafka_table_send`, told `σ`, returns what its critical section leads to. -/
theorem TableState.send_leads (s : TableState) (t : Nat) {topic : Option CStr} {data : List UInt8}
    {σ : Nat → Outcome} {r : Bool} {k : Nat}
    (hlead : Conc.Leads Op.asks (Op.look s.sh σ) (sendBody topic data) 0 r k) :
    ∃ course d, Told Op.asks iface t (fun k => (σ k).ans) 0 course
        ⟨tableProg (.send topic data), .free, s.sh, s.fr⟩ ∧
      exec iface t (tableProg (.send topic data)) course s.sh s.fr =
        some (if r then cInt data.length else -1, s.sh, d) := by
  obtain ⟨N, hN⟩ := hlead Int (sendEnd data)
  obtain ⟨is, d', hrun, htold⟩ := solo_after (t := t) (settled s.sh σ) (d := s.fr)
    (.reading {t}) hN
  have hprog : tableProg (.send topic data) =
      .call .rdlock fun _ => sendBody topic data >>= sendEnd data := kafkaTableSend_eq topic data
  rw [hprog]
  -- in, along the steps that are settled, and out
  refine ⟨.ans .ok :: (is ++ [.ans .ok]), d', ⟨fun e => (by cases e), fun s' hs => ?_⟩, ?_⟩
  · obtain rfl := Option.some.inj hs
    exact htold [.ans .ok] ⟨fun e => (by cases e), fun _ _ => trivial⟩
  · have hout : Solo.result (⟨.ret (if r then cInt data.length else -1), Lock.unlock t (.reading {t}),
        s.sh, d'⟩ : Solo Tab Flow Op Op.Res Int) =
          some (if r then cInt data.length else -1, s.sh, d') := by
      simp [Solo.result, Lock.unlock]
    rw [exec, Solo.run, List.foldlM_cons]
    show Option.bind (Solo.run iface t (is ++ [.ans .ok]) ⟨_, .reading {t}, s.sh, s.fr⟩) _ = _
    rw [Solo.run, List.foldlM_append]
    exact (congrArg (fun x => (Option.bind x _).bind _) hrun).trans hout

/-- `kafka_table_send` returns, told `σ`, where some outcome is not that the queue is full. -/
theorem TableState.send_returns (s : TableState) (t : Nat) (topic : Option CStr) {data : List UInt8}
    {σ : Nat → Outcome} (hp : ∀ k, (σ k).Possible data) (hσ : ∃ k, σ k ≠ .error queueFull) :
    ∃ course r T d, Told Op.asks iface t (fun k => (σ k).ans) 0 course
        ⟨tableProg (.send topic data), .free, s.sh, s.fr⟩ ∧
      exec iface t (tableProg (.send topic data)) course s.sh s.fr = some (r, T, d) := by
  obtain ⟨W, hW, hT⟩ := s.world
  obtain ⟨r, k', hlead⟩ : ∃ r k', Leads Op.asks (Op.look s.sh σ) (sendBody topic data) 0 r k' :=
    sendBody_ends s.inv hT hp (Or.inr hσ)
  obtain ⟨course, d, htold, he⟩ := s.send_leads t hlead
  exact ⟨course, _, s.sh, d, htold, he⟩

/-- It can accept a message to a topic that is there. -/
theorem TableState.send_accepts (s : TableState) (t : Nat) {topic : CStr} {data : List UInt8}
    (hthere : ∃ e ∈ s.seen.topics, Named topic e) (hlen : data.length ≤ messageMaxBytes) :
    ∃ course d, exec iface t (tableProg (.send (some topic) data)) course s.sh s.fr =
      some ((data.length : Int), s.sh, d) := by
  obtain ⟨W, hW, hT⟩ := s.world
  rw [TableState.seen, hT.seen] at hthere
  obtain ⟨⟨i, reg⟩, hf⟩ := World.findTopic_of_named hthere
  have hlead : Leads Op.asks (Op.look s.sh fun _ => .ok ()) (sendBody (some topic) data) 0 true 1 :=
    sendBody_accepts s.inv hT (show (some topic).bind W.findTopic = _ from hf) rfl fun _ => hlen
  obtain ⟨course, d, -, he⟩ := s.send_leads t hlead
  rw [if_pos rfl, cInt_of_le hlen] at he
  exact ⟨course, d, he⟩

/-- A function that does not wait returns, and asks nothing. -/
theorem TableState.told (s : TableState) (t : Nat) (σ : Nat → Outcome) {c : TableCall}
    (hc : (tableProg c).Straight Op.Quick) :
    ∃ course r T d, Told Op.asks iface t (fun k => (σ k).ans) 0 course
        ⟨tableProg c, .free, s.sh, s.fr⟩ ∧
      exec iface t (tableProg c) course s.sh s.fr = some (r, T, d) := by
  obtain ⟨course, r, T, d, he⟩ := s.returns t hc
  refine ⟨course, r, T, d, told_of_straight (hc.mono fun o hq => ?_), he⟩
  cases o with
  | rdKafkaProduce rkt payload key tt => exact hq.elim
  | _ => rfl

/-- In each call of a lone SQL function `rd_kafka_produce` is told `σ`. -/
def ToldBy {α : Type} (t : Nat) (σ : Nat → Outcome) :
    List (Conc.Item Course Ev) → Solo Tab Flow TableCall TableCall.Ret α → Prop
  | [],      _ => True
  | i :: is, s =>
      (∀ course c k, i = .ans course → s.rest = .call (.op c) k →
        Told Op.asks iface t (fun k => (σ k).ans) 0 course ⟨tableProg c, .free, s.sh, s.fr⟩) ∧
      ∀ s', s.step tableIface t i = some s' → ToldBy t σ is s'

/-- Told `σ`, the SQL function can return. -/
def TableState.Ends {α : Type} (s : TableState) (t : Nat) (σ : Nat → Outcome) (p : Session α) :
    Prop :=
  ∃ courses r T d, ToldBy t σ courses ⟨p, .free, s.sh, s.fr⟩ ∧
    exec tableIface t p courses s.sh s.fr = some (r, T, d)

theorem TableState.Ends.pure {α : Type} {s : TableState} {t : Nat} {σ : Nat → Outcome} {x : α} :
    s.Ends t σ (Pure.pure x) :=
  ⟨[], x, s.sh, s.fr, trivial, exec_nil t x s.sh s.fr⟩

theorem TableState.Ends.call {α : Type} {s : TableState} {t : Nat} {σ : Nat → Outcome}
    {c : TableCall} {k : c.Ret → Session α}
    (hc : ∃ course r T d, Told Op.asks iface t (fun k => (σ k).ans) 0 course
        ⟨tableProg c, .free, s.sh, s.fr⟩ ∧
      exec iface t (tableProg c) course s.sh s.fr = some (r, T, d))
    (hk : ∀ (s' : TableState) r, s'.Ends t σ (k r)) : s.Ends t σ (table c >>= k) := by
  obtain ⟨course, x, T, d, htold, he⟩ := hc
  obtain ⟨s', rfl, rfl⟩ := s.call he
  obtain ⟨courses, r, T, d, htolds, hes⟩ := hk s' x
  refine ⟨.ans course :: courses, r, T, d, ⟨fun course' c' k' hi hrest => ?_, fun s'' hs => ?_⟩,
    (exec_cons he).trans hes⟩
  · cases hi
    cases hrest
    exact htold
  · have hstep : Solo.step tableIface t (.ans course) ⟨table c >>= k, .free, s.sh, s.fr⟩ =
        some ⟨k x, .free, s'.sh, s'.fr⟩ := by
      show Option.map _ (Option.map _ (exec iface t (tableProg c) course s.sh s.fr)) = _
      rw [he]
      rfl
    obtain rfl := Option.some.inj (hstep.symm.trans hs)
    exact htolds

theorem kafkaSend_ends (s : TableState) (t : Nat) (topic : SqlArg) {msg : List UInt8}
    {σ : Nat → Outcome} (hp : ∀ k, (σ k).Possible msg) (hσ : ∃ k, σ k ≠ .error queueFull) :
    s.Ends t σ (kafkaSend topic (some msg)) := by
  have hsend : ∀ (s : TableState) name, s.Ends t σ (sendMessage name msg) := by
    intro s name
    refine TableState.Ends.call (s.send_returns t (some name) hp hσ) fun s' sent => ?_
    split <;> exact .pure
  unfold kafkaSend
  split
  · rename_i name data _ hdata
    cases hdata
    refine .call (s.told t σ (straight_quick (exists_straight (some name)))) fun s₁ found => ?_
    split
    · exact hsend s₁ name
    · refine .call (s₁.told t σ (straight_quick (create_straight (some name)))) fun s₂ created => ?_
      split
      · exact .pure
      · exact hsend s₂ name
  · exact .pure

/-! ### Exactly once -/

/-- A topic name is passed on as it is. -/
theorem terminated_topic {topic : List UInt8} (h₁ : 1 ≤ topic.length)
    (h₂ : topic.length ≤ maxTopicLen) (h₀ : (0 : UInt8) ∉ topic) :
    terminated maxTopicLen (some topic) = some ⟨topic, h₀⟩ := by
  rw [terminated_eq (by omega) h₂]
  exact congrArg some (CStr.ofBytes_val ⟨topic, h₀⟩)

/-- `kafka_send`, alone, ends in one of two ways. -/
theorem kafkaSend_alone {s : TableState} {topic msg : List UInt8} (h₁ : 1 ≤ topic.length)
    (h₂ : topic.length ≤ maxTopicLen) (h₀ : (0 : UInt8) ∉ topic) {t : Nat}
    {courses : List (Conc.Item Course Ev)} {r : SqlInt} {T' : Tab} {d' : Flow}
    (he : exec tableIface t (kafkaSend (some topic) (some msg)) courses s.sh s.fr =
      some (r, T', d')) :
    (r = ⟨msg.length, false⟩ ∧ ∃ m, SentOnce s ⟨topic, h₀⟩ msg T' d' m) ∨
      (r = .failed ∧ d'.accepted = s.fr.accepted) := by
  have hterm := terminated_topic h₁ h₂ h₀
  obtain ⟨W, hW, hT⟩ := s.world
  simp only [kafkaSend, hterm] at he
  obtain ⟨d₁, found, T₁, d₂, W₁, b₁, rest, hacc₁, hi₁, hT₁, hW₁, hb₁, ⟨rfl, rfl, -⟩, -, he⟩ :=
    session_call s.inv hT hW (allowedAll_any courses) he
  have hacc₂ : d₂.accepted = s.fr.accepted := hb₁.acc.trans hacc₁
  cases found with
  | true => exact sendMessage_alone hi₁ hT₁ hW₁ hacc₂ he
  | false =>
      obtain ⟨d₃, x, T₂, d₄, W₂, b₂, rest', hacc₃, hi₂, hT₂, hW₂, hb₂, ⟨hs, -⟩, -, he⟩ :=
        session_call hi₁ hT₁ hW₁ (allowedAll_any rest) he
      have hacc₄ : d₄.accepted = s.fr.accepted :=
        hb₂.acc.trans (hs.acc.trans (hacc₃.trans hacc₂))
      by_cases hx : x = 0
      · rw [if_neg (not_not_intro hx)] at he
        exact sendMessage_alone hi₂ hT₂ hW₂ hacc₄ he
      · rw [if_pos hx] at he
        obtain ⟨rfl, -, hsteps⟩ := exec_ret he
        exact Or.inr ⟨rfl, (accepted_envSteps hsteps).trans hacc₄⟩

/-- **`kafka_send` is exactly once towards the queue, and tells the truth**; and it returns, unless
every `rd_kafka_produce` finds the queue full. -/
theorem send_exactly_once {s : TableState} {topic : List UInt8} (msg : List UInt8)
    (h₁ : 1 ≤ topic.length) (h₂ : topic.length ≤ maxTopicLen) (h₀ : (0 : UInt8) ∉ topic) (t : Nat) :
    (∀ courses r T' d', exec tableIface t (kafkaSend (some topic) (some msg)) courses s.sh s.fr =
        some (r, T', d') →
      (0 ≤ r.value ↔ r = ⟨msg.length, false⟩ ∧ ∃ m, SentOnce s ⟨topic, h₀⟩ msg T' d' m) ∧
      (r = ⟨-1, true⟩ ↔ d'.accepted = s.fr.accepted)) ∧
    ∀ σ : Nat → Outcome, (∀ k, (σ k).Possible msg) → (∃ k, σ k ≠ .error queueFull) →
      ∃ courses r T' d',
        ToldBy t σ courses ⟨kafkaSend (some topic) (some msg), .free, s.sh, s.fr⟩ ∧
        exec tableIface t (kafkaSend (some topic) (some msg)) courses s.sh s.fr =
          some (r, T', d') := by
  refine ⟨fun courses r T' d' he => ?_, fun σ hp hσ => kafkaSend_ends s t (some topic) hp hσ⟩
  rcases kafkaSend_alone h₁ h₂ h₀ he with ⟨rfl, m, hm⟩ | ⟨rfl, hacc⟩
  · refine ⟨⟨fun _ => ⟨rfl, m, hm⟩, fun _ => Int.natCast_nonneg _⟩, fun e => ?_, fun e => ?_⟩
    · exact absurd (congrArg SqlInt.error e) Bool.false_ne_true
    · rw [hm.one] at e
      exact absurd e (by simp)
  · refine ⟨⟨fun h => absurd h (by decide), fun ⟨e, _⟩ => ?_⟩, fun _ => hacc, fun _ => rfl⟩
    exact absurd (congrArg SqlInt.error e).symm Bool.false_ne_true

/-- One `kafka_send` to a new topic: the queue is full once. -/
def sendingOnce : List (Conc.Item Course Ev) :=
  [.ans (quietly 3), .ans (quietly 15), .ans (quietly 7 ++ [.ans .queueFull] ++ quietly 7)]

/-- It sends once. -/
theorem sendingOnce_sent : ∃ (s : TableState) (T : Tab) (d : Flow),
    exec tableIface 0 (kafkaSend (some (CStr.lit "t").1) (some [1])) sendingOnce s.sh s.fr =
      some (⟨1, false⟩, T, d) ∧
    ∃ m, SentOnce s (.lit "t") [1] T d m := by
  have hrun : ((Cfg.run tableIface (commandProg somePackage)
      (running 0 (.connect (some (CStr.lit "b").1)) [quietly 20]) Sessions.initial).bind fun s =>
        (exec tableIface 0 (kafkaSend (some (CStr.lit "t").1) (some [1])) sendingOnce s.sh s.fr).map
          (·.1)) = some ⟨1, false⟩ := by
    decide +kernel
  obtain ⟨s, hs, hrun⟩ := Option.bind_eq_some_iff.mp hrun
  obtain ⟨⟨r, T, d⟩, he, rfl⟩ := Option.map_eq_some_iff.mp hrun
  obtain ⟨s₀, hsh, hfr⟩ : ∃ s₀ : TableState, s₀.sh = s.sh ∧ s₀.fr = s.fr :=
    ⟨Sessions.Reachable.state (Cfg.reach_of_run hs), rfl, rfl⟩
  rw [← hsh, ← hfr] at he
  have hlen : 1 ≤ (CStr.lit "t").1.length ∧ (CStr.lit "t").1.length ≤ maxTopicLen := by decide
  have hone := ((send_exactly_once (s := s₀) [1] hlen.1 hlen.2 (CStr.lit "t").2 0).1 _ _ T d he).1
  exact ⟨s₀, T, d, he, (hone.mp (by decide)).2⟩

/-! ### The lock of a sender -/

/-- From `s`, where the table lock is to be had for reading, session `t` has entered
`kafka_table_send`. -/
def Entered (t : Nat) (topic : CStr) (data : List UInt8) (s s₁ : Machine) : Prop :=
  Cfg.run iface tableProg [.start t (.send (some topic) data), .step t .ok] s = some s₁

/-- Where a sender is then. -/
theorem Entered.spec {t : Nat} {topic : CStr} {data : List UInt8} {s s₁ : Machine}
    (h : Entered t topic data s s₁) : s.lock.NoWriter ∧ s₁.sh = s.sh ∧ s₁.lock.held t = .rd ∧
      s₁.thr t = some ⟨.send (some topic) data, sendBody (some topic) data >>= sendEnd data⟩ := by
  obtain ⟨s₀, h₀, h₁⟩ := Option.bind_eq_some_iff.mp h
  obtain ⟨s₁', h₁, e⟩ := Option.bind_eq_some_iff.mp h₁
  cases e
  simp only [Cfg.step] at h₀
  split at h₀
  · cases h₀
    simp only [Cfg.step, Function.update_self, tableProg, kafkaTableSend_eq] at h₁
    obtain ⟨⟨p, l, T, d⟩, hstep, rfl⟩ := Option.map_eq_some_iff.mp h₁
    obtain ⟨l', hl, e⟩ := Option.map_eq_some_iff.mp hstep
    cases e
    obtain ⟨hn, -, hrd, -⟩ := Lock.rdlock_spec hl
    exact ⟨hn, rfl, hrd, Function.update_self ..⟩
  · cases h₀

/-- A sender whose topic is there, and that only ever finds the queue full, keeps the lock: nobody
writes any more, and it never lets go. -/
theorem Entered.keeps {s s₁ : Machine} (hs : s.Reachable) {t : Nat} {topic : CStr}
    {data : List UInt8} (h : Entered t topic data s s₁) {σ : Nat → Outcome}
    (hthere : ∃ e ∈ s.sh.seen.topics, Named topic e) (hσ : ∀ k, σ k = .error queueFull) :
    (∀ n k s', Fed Op.asks iface tableProg t (fun k => (σ k).ans) s₁ n k s' →
      ∀ u, s'.lock.wrlock u = none) ∧
    ¬ LetsGo Op.asks iface tableProg t (fun k => (σ k).ans) s₁ := by
  obtain ⟨hn, hsh, hrd, ht⟩ := h.spec
  obtain ⟨W, hW, hT⟩ := hs.world hn
  have hgood : Conc.Logic.Good sharing s₁ := Conc.Logic.reach_good hs.good (Cfg.reach_of_run h)
  have hset := settled s₁.sh σ
  rw [hT.seen] at hthere
  obtain ⟨⟨i, reg⟩, hf⟩ := World.findTopic_of_named hthere
  have hspin : ∀ n, (Conc.after (advance Op.asks (Op.look s₁.sh σ)) n
      (sendBody (some topic) data >>= sendEnd data, 0)).isSome := fun n =>
    sendBody_spins hgood.inv (hsh ▸ hT) (show (some topic).bind W.findTopic = _ from hf) hσ
      (sendEnd data) n
  exact ⟨fun n k s' hfed => (hfed.holds hset hgood hrd ht hspin).2,
    not_letsGo hset hgood hrd ht hspin⟩

/-- **A sender lets go of the table lock** exactly when its topic is not there, or some
`rd_kafka_produce` of it does not find the queue full. -/
theorem lets_go_iff {s s₁ : Machine} (hs : s.Reachable) {t : Nat} {topic : CStr}
    {data : List UInt8} (h : Entered t topic data s s₁) {σ : Nat → Outcome}
    (hσ : ∀ k, (σ k).Possible data) :
    LetsGo Op.asks iface tableProg t (fun k => (σ k).ans) s₁ ↔
      (∀ e ∈ s.sh.seen.topics, ¬ Named topic e) ∨ ∃ k, σ k ≠ .error queueFull := by
  constructor
  · intro hgo
    by_contra hcon
    rw [not_or, not_exists] at hcon
    obtain ⟨hthere, hall⟩ := hcon
    push Not at hthere
    exact (h.keeps hs hthere fun k => not_not.mp (hall k)).2 hgo
  · intro hor
    obtain ⟨hn, hsh, hrd, ht⟩ := h.spec
    obtain ⟨W, hW, hT⟩ := hs.world hn
    have hgood : Conc.Logic.Good sharing s₁ := Conc.Logic.reach_good hs.good (Cfg.reach_of_run h)
    have hends : (some topic).bind W.findTopic = none ∨ ∃ k, σ k ≠ .error queueFull :=
      hor.imp_left fun hno => World.findTopic_eq_none_iff.mpr (hT.seen ▸ hno)
    obtain ⟨r, k', hlead⟩ := sendBody_ends (T := s₁.sh) hgood.inv (hsh ▸ hT) hσ hends
    obtain ⟨N, hN⟩ := hlead Int (sendEnd data)
    exact letsGo_of_after (settled s₁.sh σ) hgood hrd ht hN

/-- A connected module with one topic. -/
def oneTopic : List (Label Ans Ev TableCall) :=
  calling 0 (.connect (some (.lit "b"))) 20 ++ calling 0 (.create (some (.lit "t"))) 15

theorem oneTopic_entered : ∃ s s₁ : Machine,
    Cfg.run iface tableProg oneTopic Machine.initial = some s ∧ s.sh.seen.connected = true ∧
    (∃ e ∈ s.sh.seen.topics, Named (.lit "t") e) ∧ Entered 1 (.lit "t") [1] s s₁ := by
  have hrun : ((Cfg.run iface tableProg oneTopic Machine.initial).bind fun s =>
      (Cfg.run iface tableProg [.start 1 (.send (some (.lit "t")) [1]), .step 1 .ok] s).map fun _ =>
        (s.sh.seen.connected, s.sh.seen.topics)) =
      some (true, [(0, some ⟨some ⟨1, .lit "t"⟩, some 0, some 0⟩)]) := by
    decide +kernel
  obtain ⟨s, hs, hrun⟩ := Option.bind_eq_some_iff.mp hrun
  obtain ⟨s₁, hs₁, he⟩ := Option.map_eq_some_iff.mp hrun
  obtain ⟨hconn, htopics⟩ := Prod.mk.inj he
  refine ⟨s, s₁, hs, hconn, ?_, hs₁⟩
  rw [htopics]
  exact ⟨_, List.mem_singleton_self _, _, _, rfl, rfl, rfl⟩

/-- A full queue that drains. -/
def draining (k : Nat) : Outcome := if k < 3 then .error queueFull else .ok ()

/-- The sender lets go. -/
theorem draining_letsGo : ∃ s s₁ : Machine,
    Cfg.run iface tableProg oneTopic Machine.initial = some s ∧ Entered 1 (.lit "t") [1] s s₁ ∧
    LetsGo Op.asks iface tableProg 1 (fun k => (draining k).ans) s₁ := by
  obtain ⟨s, s₁, hs, -, -, hs₁⟩ := oneTopic_entered
  have hpossible : ∀ k, (draining k).Possible [1] := fun _ _ => by decide
  refine ⟨s, s₁, hs, hs₁, (lets_go_iff (Cfg.reach_of_run hs) hs₁ hpossible).mpr (Or.inr ⟨3, ?_⟩)⟩
  exact fun e => by cases e

/-- Against a broker that never acknowledges, a sender holds the lock in every state to come: no
`kafka_table_dismiss_all` gets in. -/
theorem fullQueue_holds : ∃ s s₁ : Machine,
    Cfg.run iface tableProg oneTopic Machine.initial = some s ∧ s.sh.seen.connected = true ∧
    Entered 1 (.lit "t") [1] s s₁ ∧
    (∀ n k s', Fed Op.asks iface tableProg 1 (fun _ => Outcome.ans (.error queueFull)) s₁ n k s' →
      ∀ u, s'.lock.wrlock u = none) ∧
    ¬ LetsGo Op.asks iface tableProg 1 (fun _ => Outcome.ans (.error queueFull)) s₁ := by
  obtain ⟨s, s₁, hs, hconn, hthere, hs₁⟩ := oneTopic_entered
  exact ⟨s, s₁, hs, hconn, hs₁, Entered.keeps (Cfg.reach_of_run hs) hs₁ hthere fun _ => rfl⟩

end TrigEmit
