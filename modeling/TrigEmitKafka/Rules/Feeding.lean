import TrigEmitKafka.Rules.Calls
import TrigEmitKafka.Support.Stream

/-!
# Rules — a message fed to librdkafka

A thread that holds the lock for reading and the outcomes of its `rd_kafka_produce` calls: these
determine its steps (`settled`).  `sendBody_leads` says where they lead in the critical section of
`kafka_table_send`: out of it, once an outcome is not that the queue is full; and `sendBody_spins`
that they never do before.
-/

namespace TrigEmit

open Conc (LProg Leads LockCall Prog Settled advance after_add after_isSome_of_le
  after_of_progress after_op after_round)
open Conc.Logic (Safe alone)

/-- What `rd_kafka_produce` tells its caller. -/
abbrev Outcome := Except RespErr Unit

def Outcome.ans : Outcome → Ans
  | .ok _    => .ok
  | .error e => .fail e ""

/-- librdkafka may tell so of the payload: it accepts none above `message.max.bytes`. -/
def Outcome.Possible (data : List UInt8) (out : Outcome) : Prop :=
  out = .ok () → data.length ≤ messageMaxBytes

def Op.asks : Op → Bool
  | .rdKafkaProduce _ _ _ _ => true
  | _                       => false

/-- What a reader's operation returns at `T`, when `rd_kafka_produce` is told `σ k`. -/
def Op.look (T : Tab) (σ : Nat → Outcome) (k : Nat) : (o : Op) → Option o.Res
  | .loadKt       => some T.kt
  | .loadTopic p  => T.topics.get p
  | .loadTk p     => T.producers.get p
  | .readStr s    => some s.val
  | .serveBegin _ => some ()
  | .serveEnd     => some ()
  | .rdKafkaProduce _ data _ _ =>
      match σ k with
      | .ok _    => if data.length ≤ messageMaxBytes then some (.ok ()) else none
      | .error e => some (.error e)
  | _ => none

/-- A reader's steps are settled by what the table holds. -/
theorem settled (T : Tab) (σ : Nat → Outcome) :
    Settled Op.asks (Op.look T σ) iface (fun k => (σ k).ans) T where
  act {k o r t a d r' T' d'} hl hask ha := by
    cases o with
    | loadKt => cases hl; cases ha; exact ⟨rfl, rfl⟩
    | loadTopic p =>
        obtain ⟨v, hv, e⟩ := Option.map_eq_some_iff.mp ha
        cases e
        exact ⟨Option.some.inj (hv.symm.trans hl), rfl⟩
    | loadTk p =>
        obtain ⟨v, hv, e⟩ := Option.map_eq_some_iff.mp ha
        cases e
        exact ⟨Option.some.inj (hv.symm.trans hl), rfl⟩
    | readStr s => cases hl; cases ha; exact ⟨rfl, rfl⟩
    | serveBegin rk => cases hl; cases ha; exact ⟨rfl, rfl⟩
    | serveEnd => cases hl; cases ha; exact ⟨rfl, rfl⟩
    | rdKafkaProduce rkt data key tt =>
        obtain rfl := hask rfl
        simp only [Op.look] at hl
        cases hσ : σ k with
        | ok u =>
            rw [hσ] at hl ha
            dsimp only at hl
            split at hl
            · rename_i hlen
              cases hl
              have hact : iface.act t (.rdKafkaProduce rkt data key tt) .ok T d = _ := if_pos hlen
              rw [Outcome.ans, hact] at ha
              cases ha
              exact ⟨rfl, rfl⟩
            · cases hl
        | error e =>
            rw [hσ] at hl ha
            cases hl
            cases ha
            exact ⟨rfl, rfl⟩
    | _ => cases hl
  ready {k o r} t d hl := by
    cases o with
    | loadKt => exact ⟨.ok, fun e => (by cases e), rfl⟩
    | loadTopic p =>
        refine ⟨.ok, fun e => (by cases e), ?_⟩
        have hact : iface.act t (.loadTopic p) .ok T d = some (r, T, d) := by
          show (T.topics.get p).map _ = _
          rw [show T.topics.get p = some r from hl]
          rfl
        rw [hact]
        rfl
    | loadTk p =>
        refine ⟨.ok, fun e => (by cases e), ?_⟩
        have hact : iface.act t (.loadTk p) .ok T d = some (r, T, d) := by
          show (T.producers.get p).map _ = _
          rw [show T.producers.get p = some r from hl]
          rfl
        rw [hact]
        rfl
    | readStr s => exact ⟨.ok, fun e => (by cases e), rfl⟩
    | serveBegin rk => exact ⟨.ok, fun e => (by cases e), rfl⟩
    | serveEnd => exact ⟨.ok, fun e => (by cases e), rfl⟩
    | rdKafkaProduce rkt data key tt =>
        refine ⟨(σ k).ans, fun _ => rfl, ?_⟩
        simp only [Op.look] at hl
        cases hσ : σ k with
        | ok u =>
            rw [hσ] at hl
            dsimp only at hl
            split at hl
            · rename_i hlen
              have hact : iface.act t (.rdKafkaProduce rkt data key tt) .ok T d = _ := if_pos hlen
              rw [Outcome.ans, hact]
              rfl
            · cases hl
        | error e => rfl
    | _ => cases hl

/-! ### Where a critical section leads -/

/-- A call that only looks something up. -/
def Peeks : LockCall Op → Prop
  | .op .loadKt | .op (.loadTopic _) | .op (.loadTk _) | .op (.readStr _) | .op .undefined => True
  | _ => False

/-- A look-up that is defined changes nothing, and returns what the table holds. -/
theorem Peeks.look {o : Op} {T : Tab} {d : Flow} {t : Nat} {h : Conc.Held} (ho : Peeks (.op o))
    (hv : o.Valid t h T d) (σ : Nat → Outcome) (k : Nat) :
    ∃ r, o.act t .ok T d = some (r, T, d) ∧ o.look T σ k = some r ∧ o.asks = false := by
  cases o with
  | loadKt => exact ⟨_, rfl, rfl, rfl⟩
  | readStr s => exact ⟨_, rfl, rfl, rfl⟩
  | loadTopic p =>
      obtain ⟨v, hg⟩ := Option.isSome_iff_exists.mp hv.2
      exact ⟨v, by simp only [Op.act, hg, Option.map_some], hg, rfl⟩
  | loadTk p =>
      obtain ⟨v, hg⟩ := Option.isSome_iff_exists.mp hv.2
      exact ⟨v, by simp only [Op.act, hg, Option.map_some], hg, rfl⟩
  | undefined => exact hv.elim
  | _ => exact ho.elim

variable {α : Type} {T : Tab} {d : Flow} {t : Nat} {σ : Nat → Outcome} {k : Nat} {W : World}

/-- A safe program of look-ups leads to its goal. -/
theorem leads_peek {p : K α} {b : View} {Q : α → Conc.Mode Tab View → Prop} (hi : Inv T d)
    (ho : d.scratch t = b.scratch) (hb : b.Sees d) (hp : Prog.Straight Peeks p)
    (hs : logic.Safe (alone fun _ => True) p ⟨.rd, T, b⟩ Q) (σ : Nat → Outcome) (k : Nat) :
    ∃ x m', Q x m' ∧ Leads Op.asks (Op.look T σ) p k x k := by
  induction p generalizing b with
  | ret x => exact ⟨x, _, hs, .pure⟩
  | loop body q => exact hp.elim
  | call c q ih =>
      obtain ⟨hc, hq⟩ := hp
      cases c with
      | rdlock => exact hc.elim
      | wrlock => exact hc.elim
      | unlock => exact hc.elim
      | op o =>
          obtain ⟨hv, hact⟩ := hs _ rfl t d hi ho fun _ => hb
          obtain ⟨r, hr, hl, hask⟩ := Peeks.look hc hv σ k
          obtain ⟨-, b', ho', hb', hs'⟩ := hact .ok r T d trivial hr
          obtain ⟨x, m', hx, hlead⟩ := ih r ho' (hb' (Or.inr rfl)) (hq r) hs'
          have hop : Leads Op.asks (Op.look T σ) (LProg.op o) k r _ := Leads.op hl
          rw [hask] at hop
          exact ⟨x, m', hx, hop.bind hlead⟩

theorem peeks_topicIs (topic : CStr) (tt : Nat) : Prog.Straight Peeks (topicIs topic tt) := by
  refine ⟨trivial, fun v => ?_⟩
  simp only [Prog.bind]
  split
  · exact ⟨trivial, fun _ => trivial⟩
  · exact ⟨trivial, fun _ => trivial⟩

theorem peeks_find (topic : Option CStr) : Prog.Straight Peeks (kafkaTableFindLocked topic) := by
  cases topic with
  | none => exact trivial
  | some topic =>
      exact ⟨trivial, fun kt => (Prog.Straight.scan (peeks_topicIs topic) 0 _).bind fun _ => trivial⟩

theorem find_leads (hi : Inv T d) (hT : T.Is W.cells) (topic : Option CStr) (σ : Nat → Outcome)
    (k : Nat) : Leads Op.asks (Op.look T σ) (kafkaTableFindLocked topic) k
      ((topic.bind W.findTopic).map (·.2.tt)) k := by
  obtain ⟨x, m', ⟨rfl, -⟩, h⟩ := leads_peek (t := 0) hi rfl (View.sees_of 0 hi)
    (peeks_find topic) (kafkaTableFindLocked_spec (At.of 0 .rd hT) (by decide)) σ k
  exact h

/-! ### The loop of `tek_kafka_topic_feed_key` -/

theorem poll_leads (rk k : Nat) : Leads Op.asks (Op.look T σ) (rdKafkaPoll rk) k () k :=
  (Leads.op (o := Op.serveBegin rk) rfl).bind (Leads.op (o := Op.serveEnd) rfl)

section feed

variable {tt rkt rk : Nat} {key : Option (List UInt8)} {data : List UInt8}

theorem produce_leads {out : Outcome} (hσ : σ k = out) (hout : out.Possible data) :
    Leads Op.asks (Op.look T σ) (call (.rdKafkaProduce rkt data key tt)) k out (k + 1) := by
  have hlook : Op.look T σ k (.rdKafkaProduce rkt data key tt) = some out := by
    simp only [Op.look, hσ]
    cases out with
    | ok u => exact if_pos (hout rfl)
    | error e => rfl
  exact Leads.op hlook

/-- A round that finds the queue full is not the last. -/
theorem feedRound_full (hσ : σ k = .error queueFull) :
    Leads Op.asks (Op.look T σ) (feedRound tt rkt rk key data) k none (k + 1) := by
  refine (produce_leads hσ fun e => by cases e).bind ?_
  dsimp only
  rw [if_pos rfl]
  exact (poll_leads rk _).bind .pure

variable (tt rkt rk key) in
/-- A round with any other outcome is. -/
theorem feedRound_last (hσ : σ k ≠ .error queueFull) (hp : (σ k).Possible data) :
    ∃ status, Leads Op.asks (Op.look T σ) (feedRound tt rkt rk key data) k (some status)
      (k + 1) := by
  cases hout : σ k with
  | ok u =>
      refine ⟨.success, (produce_leads hout (hout ▸ hp)).bind ?_⟩
      exact (poll_leads rk _).bind .pure
  | error err =>
      have hne : err ≠ queueFull := fun e => hσ (by rw [hout, e])
      refine ⟨.error, (produce_leads hout fun e => by cases e).bind ?_⟩
      dsimp only
      rw [if_neg hne]
      exact .pure

variable (T tt rkt rk key) in
/-- The loop ends at the first other outcome. -/
theorem feedKey_leads (hp : ∀ i, (σ i).Possible data) {n : Nat}
    (hn : σ (k + n) ≠ .error queueFull) : ∃ status k', Leads Op.asks (Op.look T σ)
      (.loop (feedRound tt rkt rk key data) pure) k status k' := by
  induction n generalizing k with
  | zero =>
      obtain ⟨status, h⟩ := feedRound_last (T := T) tt rkt rk key hn (hp k)
      exact ⟨status, k + 1, Leads.done h .pure⟩
  | succ n ih =>
      by_cases hσ : σ k = .error queueFull
      · obtain ⟨status, k', h⟩ := ih (k := k + 1) (by rw [Nat.add_right_comm]; exact hn)
        exact ⟨status, k', Leads.again (feedRound_full hσ) h⟩
      · obtain ⟨status, h⟩ := feedRound_last (T := T) tt rkt rk key hσ (hp k)
        exact ⟨status, k + 1, Leads.done h .pure⟩

end feed

/-! ### The critical section of `kafka_table_send` -/

/-- It, as a program of its own. -/
def sendBody (topic : Option CStr) (data : List UInt8) : K Bool := do
  match ← kafkaTableFindLocked topic with
  | none    => pure false
  | some tt =>
      let status ← tekKafkaTopicFeed tt data
      pure (decide (status = .success))

/-- Out of it. -/
def sendEnd (data : List UInt8) (sent : Bool) : K Int :=
  .call .unlock fun _ => .ret (if sent then cInt data.length else -1)

theorem kafkaTableSend_eq (topic : Option CStr) (data : List UInt8) :
    kafkaTableSend topic data = .call .rdlock fun _ => sendBody topic data >>= sendEnd data := by
  have hassoc : (sendBody topic data >>= fun sent => LProg.unlock >>= fun _ => pure sent) >>=
      (fun sent => pure (if sent then cInt data.length else -1)) =
        sendBody topic data >>= sendEnd data := Prog.bind_assoc _ _ _
  exact congrArg (fun p => Prog.call LockCall.rdlock fun _ => p) hassoc

variable {topic : Option CStr} {data : List UInt8}

/-- With no such topic it ends at once. -/
theorem sendBody_none (hi : Inv T d) (hT : T.Is W.cells) (hf : topic.bind W.findTopic = none)
    (σ : Nat → Outcome) : Leads Op.asks (Op.look T σ) (sendBody topic data) 0 false 0 := by
  have hfind := find_leads hi hT topic σ 0
  rw [hf] at hfind
  exact hfind.bind .pure

/-- The record of a topic that is found leads to the loop. -/
theorem sendBody_loop (data : List UInt8) (hi : Inv T d) (hT : T.Is W.cells) {i : Nat} {reg : Reg}
    (hf : topic.bind W.findTopic = some (i, reg)) (σ : Nat → Outcome) : ∃ rk, ∀ (γ : Type)
    (f : Bool → K γ), ∃ n, Conc.after (advance Op.asks (Op.look T σ)) n (sendBody topic data >>= f, 0) =
      some (.loop (feedRound reg.tt reg.rkt rk none data) fun status =>
        f (decide (status = .success)), 0) := by
  obtain ⟨name, rfl, hx⟩ := Option.bind_eq_some_iff.mp hf
  obtain ⟨conn, hc⟩ := World.conn_of_findTopic hx
  have hrec : Op.look T σ 0 (.loadTopic reg.tt) = some ⟨some reg.name, some reg.rkt, some conn.tk⟩ :=
    hT.topics.get (World.reg_mem hc (World.mem_of_findTopic hc hx))
  have hprod : Op.look T σ 0 (.loadTk conn.tk) =
      some ⟨some conn.brokers, none, some conn.rk, conn.thr, true, true⟩ :=
    hT.producers.get (World.producer_mem hc)
  have hfind := find_leads hi hT (some name) σ 0
  rw [hf] at hfind
  refine ⟨conn.rk, fun γ f => ?_⟩
  obtain ⟨n, hn⟩ := hfind γ fun r => (match r with
    | none    => pure false
    | some tt => do
        let status ← tekKafkaTopicFeed tt data
        pure (decide (status = .success))) >>= f
  refine ⟨n + 2, ?_⟩
  rw [sendBody, Prog.bind_assoc, after_add, hn, Option.bind_some]
  exact (after_op hrec 1 _).trans (after_op hprod 0 _)

/-- **The critical section ends** where there is no such topic, or some outcome is not that the
queue is full. -/
theorem sendBody_ends (hi : Inv T d) (hT : T.Is W.cells) (hp : ∀ i, (σ i).Possible data)
    (h : topic.bind W.findTopic = none ∨ ∃ n, σ n ≠ .error queueFull) :
    ∃ r k', Leads Op.asks (Op.look T σ) (sendBody topic data) 0 r k' := by
  rcases Option.eq_none_or_eq_some (topic.bind W.findTopic) with hf | ⟨⟨i, reg⟩, hf⟩
  · exact ⟨false, 0, sendBody_none hi hT hf σ⟩
  · obtain ⟨n, hn⟩ := h.resolve_left (by rw [hf]; exact Option.some_ne_none _)
    obtain ⟨rk, hloop⟩ := sendBody_loop data hi hT hf σ
    have hn₀ : σ (0 + n) ≠ .error queueFull := by rw [Nat.zero_add]; exact hn
    obtain ⟨status, k', hkey⟩ := feedKey_leads T reg.tt reg.rkt rk none hp hn₀
    refine ⟨decide (status = .success), k', fun γ f => ?_⟩
    obtain ⟨m, hm⟩ := hloop γ f
    obtain ⟨m', hm'⟩ := hkey γ fun status => f (decide (status = .success))
    refine ⟨m + m', ?_⟩
    rw [after_add, hm]
    exact hm'

/-- It accepts a message to a topic that is found, where the first outcome says so. -/
theorem sendBody_accepts (hi : Inv T d) (hT : T.Is W.cells) {i : Nat} {reg : Reg}
    (hf : topic.bind W.findTopic = some (i, reg)) (hσ : σ 0 = .ok ())
    (hp : (σ 0).Possible data) :
    Leads Op.asks (Op.look T σ) (sendBody topic data) 0 true 1 := by
  obtain ⟨rk, hloop⟩ := sendBody_loop data hi hT hf σ
  have hround : Leads Op.asks (Op.look T σ) (feedRound reg.tt reg.rkt rk none data) 0
      (some .success) 1 :=
    (produce_leads hσ (hσ ▸ hp)).bind ((poll_leads rk _).bind .pure)
  have hkey : Leads Op.asks (Op.look T σ) (.loop (feedRound reg.tt reg.rkt rk none data) pure) 0
      TekKafkaStatus.success 1 := Leads.done hround .pure
  intro γ f
  obtain ⟨m, hm⟩ := hloop γ f
  obtain ⟨m', hm'⟩ := hkey γ fun status => f (decide (status = .success))
  refine ⟨m + m', ?_⟩
  rw [after_add, hm]
  exact hm'

/-- **The critical section spins** on a topic that is there while every outcome is that the queue
is full. -/
theorem sendBody_spins (hi : Inv T d) (hT : T.Is W.cells) {i : Nat} {reg : Reg}
    (hf : topic.bind W.findTopic = some (i, reg)) (hσ : ∀ n, σ n = .error queueFull) {γ : Type}
    (f : Bool → K γ) (n : Nat) :
    (Conc.after (advance Op.asks (Op.look T σ)) n (sendBody topic data >>= f, 0)).isSome := by
  obtain ⟨rk, hloop⟩ := sendBody_loop data hi hT hf σ
  obtain ⟨m, hm⟩ := hloop γ f
  -- the loop comes round again, with one more outcome asked for
  have hround : ∀ x, (∃ k, x = (.loop (feedRound reg.tt reg.rkt rk none data) fun status =>
      f (decide (status = .success)), k)) →
      ∃ n y, 0 < n ∧ Conc.after (advance Op.asks (Op.look T σ)) n x = some y ∧
        ∃ k, y = (.loop (feedRound reg.tt reg.rkt rk none data) fun status =>
          f (decide (status = .success)), k) := by
    rintro _ ⟨k, rfl⟩
    obtain ⟨n, hn, hround⟩ := after_round (feedRound_full (hσ k))
    exact ⟨n, _, hn, hround, k + 1, rfl⟩
  have hspin := after_of_progress hround n _ ⟨0, rfl⟩
  refine after_isSome_of_le (Nat.le_add_left n m) ?_
  rw [after_add, hm]
  exact hspin

end TrigEmit
