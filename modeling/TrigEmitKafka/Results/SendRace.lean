import TrigEmitKafka.Results.Sending
import TrigEmitKafka.Results.Statistics

/-!
# Results — a send among disconnects of its topic

`kafka_send` takes the lock up to three times: to look for its topic, to create it where it is not
there, and to send to it.  Between two of them any other session may take its turn, one that
disconnects the topic too.

The runs here have a producer all the while, and nothing is refused in them (`StaysUp`).

* `dismissed_in_between`: a `kafka_send` fails in such a run, as another session dismisses its topic
  between the second and the third time.
* `sends_land`: in every such run in which no topic is dismissed while a session is about to send to
  it (`SparesSenders`), a `kafka_send` returns nothing but the length of its payload, and its
  message is in the queue, with the record and the handle of its topic; and it goes on until it
  returns.
-/

namespace TrigEmit

open Conc (Cfg Label Told exec)
open Conc.Logic (Allowed alone allowed_any)

/-! ### What the three calls do -/

section calls

variable {T T' : Tab} {d d' : Flow} {t : Nat} {course : Course} {n : CStr} {data : List UInt8}

theorem Tab.Is.record_isSome {W : World} (h : T.Is W.cells) (n : CStr) :
    (T.record n).isSome = (W.findTopic n).isSome := by
  rw [h.record_findTopic, Option.isSome_map]

/-- `kafka_table_exists` says whether the topic is registered. -/
theorem exists_record {found : Bool} (hi : Inv T d) (hT : TableInv T)
    (he : exec iface t (tableProg (.exists (some n))) course T d = some (found, T', d')) :
    (T'.record n).isSome = found := by
  obtain ⟨W, hW, hT⟩ := hT
  obtain ⟨-, W', b', hT', -, -, -, rfl, -, rfl⟩ := exec_effect hi hT hW (allowed_any course) he
  exact hT'.record_isSome n

/-- Connected, and with nothing refused, `kafka_table_create` registers the topic. -/
theorem create_record {created : Int} (hi : Inv T d) (hT : TableInv T)
    (hconn : T.seen.connected = true) (hn : zstr (some n) = false)
    (hok : Allowed Ans.Granted course)
    (he : exec iface t (tableProg (.create (some n))) course T d = some (created, T', d')) :
    created = 0 ∧ (T'.record n).isSome = true := by
  obtain ⟨W, hW, hT⟩ := hT
  obtain ⟨-, W', b', hT', hW', -, -, -, hcreated, hfail⟩ := exec_effect hi hT hW hok he
  have hzero : created = 0 := by
    by_contra hne
    rcases hfail hne with hf | hnone | hz
    · exact not_mayFail_granted hf
    · rw [hT.seen, (World.obs_disconnected hnone).1] at hconn
      cases hconn
    · rw [hn] at hz
      cases hz
  obtain ⟨name, e, hcases⟩ := hcreated.ok hzero
  cases e
  have hreg : ∃ r ∈ W'.regs, r.name.val = n := by
    rcases hcases with ⟨⟨⟨i, r⟩, hf⟩, ho⟩ | ⟨-, -, -, r, hname, -, ho⟩
    · obtain ⟨hr, hname⟩ := World.findTopic_some hf
      refine ⟨r, ?_, hname⟩
      show r ∈ W'.obs.topics
      rw [ho]
      exact List.mem_of_getElem? hr
    · refine ⟨r, ?_, hname⟩
      show r ∈ W'.obs.topics
      rw [ho]
      exact List.mem_append_right _ (List.mem_singleton_self r)
  obtain ⟨r, hr, hname⟩ := hreg
  refine ⟨hzero, Option.isSome_iff_exists.mpr ⟨r.tt, ?_⟩⟩
  exact (hT'.record_iff hW').mpr ⟨r, hr, hname, rfl⟩

/-- The message carries the payload to the topic: its opaque is the record registered for the
topic, its handle is one of the topic. -/
structure Carries (T : Tab) (n : CStr) (data : List UInt8) (m : Message) : Prop where
  payload : m.payload = data
  key : m.key = none
  record : T.record n = some m.tt
  handle : ∃ h, T.rkts.get m.rkt = some h ∧ h.name = n

/-- With nothing refused, `kafka_table_send` has the message accepted if the topic is registered. -/
theorem send_record {sent : Int} (hi : Inv T d) (hT : TableInv T)
    (hrec : (T.record n).isSome = true) (hok : Allowed Ans.Granted course)
    (he : exec iface t (tableProg (.send (some n) data)) course T d = some (sent, T', d')) :
    sent = data.length ∧ ∃ m, d'.accepted = d.accepted ++ [m] ∧ Carries T n data m := by
  obtain ⟨W, hW, hT⟩ := hT
  obtain ⟨-, W', b', hT', -, hb, -, rfl, hcases⟩ := exec_effect hi hT hW hok he
  rcases hcases with ⟨hsent, hlen, i, reg, id, hf, rfl⟩ | ⟨-, -, hnone | hf⟩
  · have hf : W'.findTopic n = some (i, reg) := hf
    obtain ⟨conn, hc⟩ := World.conn_of_findTopic hf
    have hreg := World.mem_of_findTopic hc hf
    obtain ⟨hi', hname⟩ := World.findTopic_some hf
    refine ⟨hsent.trans (cInt_of_le hlen), ⟨id, reg.rkt, none, data, reg.tt⟩, hb.acc, rfl, rfl, ?_,
      _, hT.rkts.get (World.handle_mem hc hreg), hname⟩
    exact (hT.record_iff hW).mpr ⟨reg, List.mem_of_getElem? hi', hname, rfl⟩
  · have hnone : W'.findTopic n = none := hnone
    rw [hT.record_isSome, hnone] at hrec
    cases hrec
  · exact absurd hf not_mayFail_granted

end calls

/-! ### The runs -/

/-- There is a producer, no step takes it away, and nothing is refused. -/
def StaysUp (s : Sessions) (l : Label Course Ev Command) : Prop :=
  s.sh.seen.connected = true ∧ ∀ u course, l = .step u course →
    Allowed Ans.Granted course ∧ s.next u ≠ some .dismissAll

/-- The step does not dismiss a topic that a session is about to send to. -/
def SparesSenders (s : Sessions) (l : Label Course Ev Command) : Prop :=
  ∀ u course n, l = .step u course → s.next u = some (.dismiss (some n)) →
    ∀ t data, s.next t ≠ some (.send (some n) data)

/-- Session `t` has the message of its `kafka_send` accepted at one of the steps `ls` from `s`. -/
def Took (package : PackageString) (t : Nat) (n : CStr) (data : List UInt8) (s : Sessions)
    (ls : List (Label Course Ev Command)) : Prop :=
  ∃ l₁ course l₂ s₁ s₂ m, ls = l₁ ++ .step t course :: l₂ ∧
    Cfg.run tableIface (commandProg package) l₁ s = some s₁ ∧
    s₁.step tableIface (commandProg package) (.step t course) = some s₂ ∧
    s₂.fr.accepted = s₁.fr.accepted ++ [m] ∧ Carries s₁.sh n data m

theorem Took.snoc {package : PackageString} {t : Nat} {n : CStr} {data : List UInt8} {s : Sessions}
    {ls : List (Label Course Ev Command)} (h : Took package t n data s ls)
    (l : Label Course Ev Command) : Took package t n data s (ls ++ [l]) := by
  obtain ⟨l₁, course, l₂, s₁, s₂, m, rfl, hrest⟩ := h
  exact ⟨l₁, course, l₂ ++ [l], s₁, s₂, m, by simp, hrest⟩

/-- Session `t` can take its next step, whatever `rd_kafka_produce` says of the payload, unless it
finds the queue full for ever. -/
def Moves (package : PackageString) (t : Nat) (msg : List UInt8) (s : Sessions) : Prop :=
  ∃ c, s.next t = some c ∧ ∀ σ : Nat → Outcome, (∀ k, (σ k).Possible msg) →
    (∃ k, σ k ≠ .error queueFull) → ∃ course s',
      Told Op.asks iface t (fun k => (σ k).ans) 0 course ⟨tableProg c, .free, s.sh, s.fr⟩ ∧
      s.step tableIface (commandProg package) (.step t course) = some s'

/-- What is asked of the `kafka_send` that session `t` has begun in `s`, after the steps `ls` to
`s'`: what it returns, and that it goes on until it does. -/
structure Lands (package : PackageString) (t : Nat) (topic msg : List UInt8) (n : CStr)
    (s : Sessions) (ls : List (Label Course Ev Command)) (s' : Sessions) : Prop where
  told : ∀ r, s'.thr t = some ⟨.send (some topic) (some msg), .ret r⟩ →
    r = ⟨msg.length, false⟩ ∧ Took package t n msg s ls
  goesOn : (∃ r, s'.thr t = some ⟨.send (some topic) (some msg), .ret r⟩) ∨ Moves package t msg s'

/-! ### Where a sender is -/

/-- `kafka_send` once its topic was not found. -/
def createAndSend (n : CStr) (data : List UInt8) : Session SqlInt := do
  let created : Int ← table (.create (some n))
  if created ≠ 0 then pure .failed else sendMessage n data

/-- `kafka_send` of a topic name and a message that are not NULL. -/
def findAndSend (n : CStr) (data : List UInt8) : Session SqlInt := do
  let found : Bool ← table (.exists (some n))
  if found then sendMessage n data else createAndSend n data

/-- Where a session is in `kafka_send`, when the table is `T`; `took` says that its message was
accepted. -/
inductive Sending (n : CStr) (data : List UInt8) (took : Prop) (T : Tab) : Session SqlInt → Prop where
  | looking : Sending n data took T (findAndSend n data)
  | creating : Sending n data took T (createAndSend n data)
  | sending : (T.record n).isSome = true → Sending n data took T (sendMessage n data)
  | sent : took → Sending n data took T (.ret ⟨data.length, false⟩)

section runs

variable {package : PackageString} {s s' : Sessions} {t : Nat} {topic msg : List UInt8} {n : CStr}
  {l : Label Course Ev Command} {p : Session SqlInt}

/-- A step of another session that spares the sender leaves its topic registered. -/
theorem Sessions.step_record (h : s.Reachable package)
    (hs : s.step tableIface (commandProg package) l = some s') (hup : StaysUp s l)
    (hspare : SparesSenders s l) (hnext : s.next t = some (.send (some n) msg))
    (hl : l.thread ≠ some t) (hrec : (s.sh.record n).isSome = true) :
    (s'.sh.record n).isSome = true := by
  rcases Cfg.step_act hs with ⟨hsh, -⟩ | ⟨u, c, course, r, rfl, hc, ha⟩ | ⟨hsh, -⟩
  · rw [hsh]
    exact hrec
  · obtain ⟨p, hp⟩ := Option.isSome_iff_exists.mp hrec
    obtain ⟨hi, W, hW, hT⟩ := h.world
    obtain ⟨-, W', b', hT', hW', -, -, heff⟩ := exec_effect hi hT hW (allowed_any course) ha
    have hkeeps : ¬ c.Disconnects n := by
      intro hdis
      cases c with
      | dismiss topic =>
          obtain rfl : topic = some n := hdis
          exact hspare u course n rfl hc t msg hnext
      | dismissAll => exact (hup.2 u course rfl).2 hc
      | _ => exact hdis
    obtain ⟨reg, hreg, hn, htt⟩ := (hT.record_iff hW).mp hp
    have hreg' := heff.keeps_topic hW hkeeps hreg hn
    exact Option.isSome_iff_exists.mpr ⟨p, (hT'.record_iff hW').mpr ⟨reg, hreg', hn, htt⟩⟩
  · rw [hsh]
    exact hrec

/-- What one step does to a sender that does not return in it. -/
theorem Sending.step {took took' : Prop} (h : s.Reachable package)
    (hs : s.step tableIface (commandProg package) l = some s') (hup : StaysUp s l)
    (hspare : SparesSenders s l) (hn : zstr (some n) = false) (hl : l ≠ .finish t)
    (ht : s.thr t = some ⟨.send (some topic) (some msg), p⟩) (hp : Sending n msg took s.sh p)
    (hmono : took → took')
    (htook : ∀ course m, l = .step t course → s'.fr.accepted = s.fr.accepted ++ [m] →
      Carries s.sh n msg m → took') :
    ∃ p', s'.thr t = some ⟨.send (some topic) (some msg), p'⟩ ∧ Sending n msg took' s'.sh p' := by
  by_cases hthr : l.thread = some t
  · cases l with
    | env e => cases hthr
    | start u c => cases hthr; simp only [Cfg.step, ht] at hs; cases hs
    | finish u => cases hthr; exact absurd rfl hl
    | step u course =>
        cases hthr
        obtain ⟨hok, -⟩ := hup.2 t course rfl
        obtain ⟨hi, hT⟩ := h.world
        cases hp with
        | looking =>
            obtain ⟨found, ha, ht'⟩ := Cfg.step_op hs ht
            have hfound := exists_record hi hT ha
            cases found with
            | true => exact ⟨_, ht', .sending hfound⟩
            | false => exact ⟨_, ht', .creating⟩
        | creating =>
            obtain ⟨created, ha, ht'⟩ := Cfg.step_op hs ht
            obtain ⟨rfl, hrec⟩ := create_record hi hT hup.1 hn hok ha
            exact ⟨_, ht', .sending hrec⟩
        | sending hrec =>
            obtain ⟨sent, ha, ht'⟩ := Cfg.step_op hs ht
            obtain ⟨rfl, m, hacc, hm⟩ := send_record hi hT hrec hok ha
            rw [if_neg (by omega)] at ht'
            exact ⟨_, ht', .sent (htook course m rfl hacc hm)⟩
        | sent _ => simp only [Cfg.step, ht] at hs; cases hs
  · have ht' := (Cfg.step_of_ne hs hthr).trans ht
    refine ⟨p, ht', ?_⟩
    cases hp with
    | looking => exact .looking
    | creating => exact .creating
    | sending hrec =>
        have hnext : s.next t = some (.send (some n) msg) := Cfg.next_eq_some.mpr ⟨_, _, ht⟩
        exact .sending (Sessions.step_record h hs hup hspare hnext hthr hrec)
    | sent hd => exact .sent (hmono hd)

/-- What a run does to it. -/
theorem Sending.run {ls : List (Label Course Ev Command)} (h : s.Reachable package)
    (hrun : Cfg.RunBy tableIface (commandProg package)
      (fun s l => StaysUp s l ∧ SparesSenders s l) s ls s')
    (hn : zstr (some n) = false) (hno : .finish t ∉ ls)
    (ht : s.thr t = some ⟨.send (some topic) (some msg), findAndSend n msg⟩) :
    ∃ p', s'.thr t = some ⟨.send (some topic) (some msg), p'⟩ ∧
      Sending n msg (Took package t n msg s ls) s'.sh p' := by
  induction hrun with
  | nil => exact ⟨_, ht, .looking⟩
  | @snoc ls s₁ s₂ l hrun hC hs ih =>
      obtain ⟨p, hp, hsending⟩ := ih fun hm => hno (List.mem_append_left _ hm)
      refine Sending.step (h.trans hrun.reach) hs hC.1 hC.2 hn ?_ hp hsending (·.snoc l) ?_
      · rintro rfl
        exact hno (List.mem_append_right _ (List.mem_singleton_self _))
      · rintro course m rfl hacc hm
        exact ⟨ls, course, [], s₁, s₂, m, rfl, hrun.run, hs, hacc, hm⟩

/-- A session whose next call returns can take its next step. -/
theorem Moves.of_returns {c : TableCall} {k : c.Ret → Session SqlInt}
    (ht : s.thr t = some ⟨.send (some topic) (some msg), table c >>= k⟩)
    (hret : ∀ σ : Nat → Outcome, (∀ k, (σ k).Possible msg) → (∃ k, σ k ≠ .error queueFull) →
      ∃ course r T d,
        Told Op.asks iface t (fun k => (σ k).ans) 0 course ⟨tableProg c, .free, s.sh, s.fr⟩ ∧
        exec iface t (tableProg c) course s.sh s.fr = some (r, T, d)) :
    Moves package t msg s := by
  refine ⟨c, Cfg.next_eq_some.mpr ⟨.send (some topic) (some msg), k, ht⟩, fun σ hσ hfull => ?_⟩
  obtain ⟨course, r, T, d, htold, he⟩ := hret σ hσ hfull
  have hhead : Conc.headStep tableIface t course (table c >>= k) s.lock s.sh s.fr =
      some (k r, s.lock, T, d) := by
    show Option.map _ (exec iface t (tableProg c) course s.sh s.fr) = _
    rw [he]
    rfl
  exact ⟨course, _, htold, Cfg.step_head tableIface (commandProg package) ht hhead⟩

/-- A sender returns, or goes on. -/
theorem Sending.goesOn {took : Prop} (h : s.Reachable package)
    (ht : s.thr t = some ⟨.send (some topic) (some msg), p⟩) (hp : Sending n msg took s.sh p) :
    (∃ r, s.thr t = some ⟨.send (some topic) (some msg), .ret r⟩) ∨ Moves package t msg s := by
  cases hp with
  | looking =>
      exact Or.inr (.of_returns ht fun σ _ _ =>
        h.state.told t σ (straight_quick (exists_straight (some n))))
  | creating =>
      exact Or.inr (.of_returns ht fun σ _ _ =>
        h.state.told t σ (straight_quick (create_straight (some n))))
  | sending _ =>
      exact Or.inr (.of_returns ht fun σ hσ hfull => h.state.send_returns t (some n) hσ hfull)
  | sent _ => exact Or.inl ⟨_, ht⟩

/-- **Every send lands unless its topic is dismissed in between.**  In a run with a producer all the
while, in which nothing is refused and no topic is dismissed while a session is about to send to it,
a `kafka_send` returns nothing but the length of its payload, its message is accepted, and it goes
on until it returns. -/
theorem sends_land {s₀ : Sessions} {ls : List (Label Course Ev Command)}
    (h : s₀.Reachable package)
    (hstart : s₀.step tableIface (commandProg package) (.start t (.send (some topic) (some msg))) =
      some s)
    (hrun : Cfg.RunBy tableIface (commandProg package)
      (fun s l => StaysUp s l ∧ SparesSenders s l) s ls s')
    (hno : .finish t ∉ ls) (h₁ : 1 ≤ topic.length) (h₂ : topic.length ≤ maxTopicLen)
    (hnul : (0 : UInt8) ∉ topic) : Lands package t topic msg ⟨topic, hnul⟩ s ls s' := by
  have hreach : s.Reachable package := h.step _ hstart
  have hprog : kafkaSend (some topic) (some msg) = findAndSend ⟨topic, hnul⟩ msg := by
    simp only [kafkaSend, terminated_topic h₁ h₂ hnul]
    rfl
  have ht : s.thr t =
      some ⟨.send (some topic) (some msg), findAndSend ⟨topic, hnul⟩ msg⟩ := by
    rw [← hprog]
    simp only [Cfg.step] at hstart
    split at hstart <;> cases hstart
    exact Function.update_self ..
  have hname : zstr (some (⟨topic, hnul⟩ : CStr)) = false := by
    cases topic with
    | nil => exact absurd h₁ (by decide)
    | cons b bs => rfl
  obtain ⟨p, hp, hsending⟩ := Sending.run hreach hrun hname hno ht
  refine ⟨fun r hr => ?_, Sending.goesOn (hreach.trans hrun.reach) hp hsending⟩
  have hret := hp.symm.trans hr
  cases hsending with
  | sent htook =>
      cases hret
      exact ⟨rfl, htook⟩
  | looking => cases hret
  | creating => cases hret
  | sending _ => cases hret

end runs

/-! ### Two runs -/

/-- `StaysUp`, checked. -/
def quietStep (s : Sessions) : Label Course Ev Command → Bool
  | .step u course => s.sh.seen.connected && course.all (fun
      | .ans a => decide (a = .ok) || decide (a = .queueFull)
      | .env _ => true) && decide (s.next u ≠ some .dismissAll)
  | _ => s.sh.seen.connected

theorem staysUp_of_quietStep {s : Sessions} {l : Label Course Ev Command}
    (h : quietStep s l = true) : StaysUp s l := by
  cases l with
  | step u course =>
      simp only [quietStep, Bool.and_eq_true] at h
      obtain ⟨⟨hconn, hall⟩, hnext⟩ := h
      refine ⟨hconn, fun u' course' e => ?_⟩
      cases e
      refine ⟨fun a ha => ?_, of_decide_eq_true hnext⟩
      have hgranted := List.all_eq_true.mp hall _ ha
      simpa [Ans.Granted] using hgranted
  | start u c => exact ⟨h, fun u' course' e => by cases e⟩
  | finish u => exact ⟨h, fun u' course' e => by cases e⟩
  | env e => exact ⟨h, fun u' course' e => by cases e⟩

/-- The step dismisses no topic. -/
def dismissesNothing (s : Sessions) : Label Course Ev Command → Bool
  | .step u _ =>
      match s.next u with
      | some (.dismiss _) => false
      | _                 => true
  | _ => true

theorem sparesSenders_of_dismissesNothing {s : Sessions} {l : Label Course Ev Command}
    (h : dismissesNothing s l = true) : SparesSenders s l := by
  rintro u course n rfl hnext
  simp only [dismissesNothing, hnext] at h
  cases h

/-- What session `t` is about to return from `kafka_send`. -/
def Sessions.sending (s : Sessions) (t : Nat) : Option (SqlArg × SqlArg × SqlInt) :=
  match s.thr t with
  | some ⟨.send topic msg, .ret r⟩ => some (topic, msg, r)
  | _                              => none

theorem Sessions.thr_of_sending {s : Sessions} {t : Nat} {topic msg : SqlArg} {r : SqlInt}
    (h : Sessions.sending s t = some (topic, msg, r)) :
    s.thr t = some ⟨.send topic msg, .ret r⟩ := by
  unfold Sessions.sending at h
  split at h
  · cases h
    assumption
  · cases h

/-- The topic of the runs. -/
def nameT : List UInt8 := (CStr.lit "t").1

theorem nameT_ok : 1 ≤ nameT.length ∧ nameT.length ≤ maxTopicLen ∧ (0 : UInt8) ∉ nameT := by
  decide

/-- A connected module whose session 1 calls `kafka_send` next; the topic was there before, and was
dismissed. -/
def beforeSend : List (Label Course Ev Command) :=
  running 1 (.connect (some (CStr.lit "b").1)) [quietly 20] ++
    running 2 (.send (some nameT) (some [0])) [quietly 3, quietly 15, quietly 11] ++
    running 2 (.disconnect (some (some nameT))) [quietly 22]

/-- The send creates its topic again, and another session asks for its statistics in between. -/
def withStats : List (Label Course Ev Command) :=
  [.step 1 (quietly 3), .step 1 (quietly 16)] ++ running 2 (.stats (some nameT)) [quietly 12] ++
    [.step 1 (quietly 11)]

/-- It lands. -/
theorem withStats_lands : ∃ s s' : Sessions,
    s'.thr 1 = some ⟨.send (some nameT) (some [1]), .ret ⟨1, false⟩⟩ ∧
    Lands somePackage 1 nameT [1] ⟨nameT, nameT_ok.2.2⟩ s withStats s' := by
  have hrun : ((Cfg.run tableIface (commandProg somePackage) beforeSend Sessions.initial).bind
      fun s₀ => (s₀.step tableIface (commandProg somePackage)
        (.start 1 (.send (some nameT) (some [1])))).bind fun s =>
          (Cfg.runIf tableIface (commandProg somePackage)
            (fun s l => quietStep s l && dismissesNothing s l) withStats s).bind
              (Sessions.sending · 1)) = some (some nameT, some [1], ⟨1, false⟩) := by
    decide +kernel
  obtain ⟨s₀, hs₀, hrun⟩ := Option.bind_eq_some_iff.mp hrun
  obtain ⟨s, hs, hrun⟩ := Option.bind_eq_some_iff.mp hrun
  obtain ⟨s', hs', hret⟩ := Option.bind_eq_some_iff.mp hrun
  have hby := Cfg.runBy_of_runIf (C := fun s l => StaysUp s l ∧ SparesSenders s l)
    (fun s l hc => by
      obtain ⟨hq, hd⟩ := Bool.and_eq_true_iff.mp hc
      exact ⟨staysUp_of_quietStep hq, sparesSenders_of_dismissesNothing hd⟩) hs'
  have hno : Label.finish 1 ∉ withStats := by simp [withStats, running]
  obtain ⟨h₁, h₂, hnul⟩ := nameT_ok
  exact ⟨s, s', Sessions.thr_of_sending hret,
    sends_land (Cfg.reach_of_run hs₀) hs hby hno h₁ h₂ hnul⟩

/-- The send creates its topic, and another session disconnects it before the third time. -/
def withDisconnect : List (Label Course Ev Command) :=
  [.step 1 (quietly 3), .step 1 (quietly 16)] ++
    running 2 (.disconnect (some (some nameT))) [quietly 21] ++ [.step 1 (quietly 3)]

/-- The send fails, with a producer all the while and nothing refused. -/
theorem dismissed_in_between : ¬ ∀ (s₀ s s' : Sessions) (t : Nat) (topic msg : List UInt8)
    (ls : List (Label Course Ev Command)) (hnul : (0 : UInt8) ∉ topic),
    s₀.Reachable somePackage →
    s₀.step tableIface (commandProg somePackage) (.start t (.send (some topic) (some msg))) =
      some s →
    Cfg.RunBy tableIface (commandProg somePackage) StaysUp s ls s' → .finish t ∉ ls →
    1 ≤ topic.length → topic.length ≤ maxTopicLen →
    Lands somePackage t topic msg ⟨topic, hnul⟩ s ls s' := by
  intro hall
  have hrun : ((Cfg.run tableIface (commandProg somePackage) beforeSend Sessions.initial).bind
      fun s₀ => (s₀.step tableIface (commandProg somePackage)
        (.start 1 (.send (some nameT) (some [1])))).bind fun s =>
          (Cfg.runIf tableIface (commandProg somePackage) quietStep withDisconnect s).bind
            (Sessions.sending · 1)) = some (some nameT, some [1], .failed) := by
    decide +kernel
  obtain ⟨s₀, hs₀, hrun⟩ := Option.bind_eq_some_iff.mp hrun
  obtain ⟨s, hs, hrun⟩ := Option.bind_eq_some_iff.mp hrun
  obtain ⟨s', hs', hret⟩ := Option.bind_eq_some_iff.mp hrun
  have hby := Cfg.runBy_of_runIf (fun _ _ => staysUp_of_quietStep) hs'
  have hno : Label.finish 1 ∉ withDisconnect := by simp [withDisconnect, running]
  obtain ⟨h₁, h₂, hnul⟩ := nameT_ok
  have hlands := hall s₀ s s' 1 nameT [1] withDisconnect hnul (Cfg.reach_of_run hs₀) hs hby hno h₁ h₂
  obtain ⟨hvalue, -⟩ := hlands.told .failed (Sessions.thr_of_sending hret)
  exact absurd (congrArg SqlInt.error hvalue) (by decide)

end TrigEmit
