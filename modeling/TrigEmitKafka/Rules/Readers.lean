import TrigEmitKafka.Rules.Connection

/-!
# Rules — the critical sections of readers, and the check of a parameter

A reader leaves the guarded state as it is and answers from it: every answer is a function of
what can be observed of the world, but for the two counters, which reports move meanwhile.
`kafka_table_validate_param` works outside the lock, on a configuration of its own.
-/

namespace TrigEmit

open Conc (Held Logic Mode Setting Prog)
open Conc.Logic (Safe)

variable {S : Setting Tab View Ans} {m : Mode Tab View} {h : Held} {c : Cells} {b : View}

/-! ### The producer and the parameters -/

theorem connectedBody_spec {W : World} (hm : At h W.cells b m) (hh : h ≠ .none) :
    logic.Safe S (do let kt ← call .loadKt; pure kt.producer.isSome) m fun r m' =>
      r = W.obs.producer.isSome ∧ m' = m := by
  refine (loadKt_spec hm hh).seq ?_
  rintro _ _ ⟨rfl, rfl⟩
  refine Safe.pure ⟨?_, rfl⟩
  cases hc : W.conn <;> simp [World.cells, World.kt, World.obs, hc]

/-- What `kafka_table_get_brokers` answers. -/
def Obs.brokers (o : Obs) (buflen : Nat) : Int × List UInt8 :=
  match o.producer with
  | none   => (0, [])
  | some p => (1, p.brokers.val.1.take (buflen - 1))

theorem getBrokersBody_spec {W : World} {buflen : Nat} (hm : At h W.cells b m) (hh : h ≠ .none) :
    logic.Safe S (do
      let kt ← call .loadKt
      match kt.producer with
      | none    => pure (0, [])
      | some tk =>
          let v ← call (.loadTk tk)
          match v.brokers with
          | none   => pure (0, [])
          | some s =>
              let brokers ← call (.readStr s)
              pure (1, brokers.1.take (buflen - 1))) m fun (r : Int × List UInt8) m' =>
      r = W.obs.brokers buflen ∧ m' = m := by
  refine (loadKt_spec hm hh).seq ?_
  rintro _ _ ⟨rfl, rfl⟩
  rcases Option.eq_none_or_eq_some W.conn with hc | ⟨conn, hc⟩
  · have hk : W.cells.kt.producer = none := by simp [World.cells, World.kt, hc]
    rw [hk]
    exact Safe.pure ⟨by simp [Obs.brokers, World.obs, hc], rfl⟩
  · have hk : W.cells.kt.producer = some conn.tk := by simp [World.cells, World.kt, hc]
    have hs : conn.brokers.cell ∈ W.cells.strs := by simp [World.cells, hc, Conn.strs]
    rw [hk]
    refine (loadTk_spec hm hh (World.producer_mem hc)).seq ?_
    rintro _ _ ⟨rfl, rfl⟩
    refine (readStr_spec hm hh hs).seq ?_
    rintro _ _ ⟨rfl, rfl⟩
    exact Safe.pure ⟨by simp [Obs.brokers, World.obs, hc], rfl⟩

/-- What `kafka_table_describe_params` leaves in its buffer. -/
def described (buflen : Nat) : List (CStr × CStr) → Nat → List UInt8 → List UInt8
  | [],      _,    buf => buf
  | (name, value) :: ps, used, buf =>
      if used + 1 < buflen then
        let line := paramLine name (if kafkaParamIsSecret name then .lit "********" else value)
        let buf' := buf ++ line.take (buflen - used - 1)
        if line.length < 2 ^ 31 then described buflen ps (used + line.length) buf' else buf'
      else buf

theorem describeParams_spec {buflen : Nat} {m : Mode Tab View} (ps : List KafkaParam) (used : Nat)
    (buf : List UInt8) (hm : At h c b m) (hh : h ≠ .none)
    (hps : ∀ p ∈ ps, p.name.cell ∈ c.strs ∧ p.value.cell ∈ c.strs) :
    logic.Safe S (describeParams buflen ps used buf) m fun r m' =>
      r = described buflen (ps.map (·.pair)) used buf ∧ m' = m := by
  induction ps generalizing used buf m with
  | nil => exact Safe.pure ⟨rfl, rfl⟩
  | cons p ps ih =>
      obtain ⟨hn, hv⟩ := hps p List.mem_cons_self
      have hrest : ∀ q ∈ ps, q.name.cell ∈ c.strs ∧ q.value.cell ∈ c.strs := fun q hq =>
        hps q (List.mem_cons_of_mem _ hq)
      rw [describeParams, List.map_cons, KafkaParam.pair, described]
      by_cases hu : used + 1 < buflen
      · rw [if_pos hu, if_pos hu]
        refine (readStr_spec hm hh hn).seq ?_
        rintro _ m ⟨rfl, rfl⟩
        have hshown : logic.Safe S (shownValue p.name.val p) m fun r m' =>
            r = (if kafkaParamIsSecret p.name.val then .lit "********" else p.value.val) ∧
              m' = m := by
          unfold shownValue
          split
          · exact Safe.pure ⟨rfl, rfl⟩
          · exact readStr_spec hm hh hv
        refine hshown.seq ?_
        rintro shown m ⟨hs, rfl⟩
        rw [← hs]
        dsimp only
        by_cases hl : (paramLine p.name.val shown).length < 2 ^ 31
        · rw [if_pos hl, if_pos hl]
          exact ih _ _ hm hrest
        · rw [if_neg hl, if_neg hl]
          exact Safe.pure ⟨rfl, rfl⟩
      · rw [if_neg hu, if_neg hu]
        exact Safe.pure ⟨rfl, rfl⟩

/-- What `kafka_table_describe_params` answers. -/
def Obs.describe (o : Obs) (buflen : Nat) : Int × List UInt8 :=
  (cInt o.params.length, described buflen o.params 0 [])

theorem describeBody_spec {W : World} {buflen : Nat} (hm : At h W.cells b m) (hh : h ≠ .none) :
    logic.Safe S (do
      let kt ← call .loadKt
      let buf ← describeParams buflen kt.params.items 0 []
      pure (cInt kt.params.items.length, buf)) m fun (r : Int × List UInt8) m' =>
      r = W.obs.describe buflen ∧ m' = m := by
  refine (loadKt_spec hm hh).seq ?_
  rintro _ _ ⟨rfl, rfl⟩
  refine (describeParams_spec W.params.items 0 [] hm hh fun p hp => World.param_mem hp).seq ?_
  rintro _ _ ⟨rfl, rfl⟩
  refine Safe.pure ⟨?_, rfl⟩
  rw [Obs.describe, World.obs_params, List.length_map]; rfl

/-! ### Topics -/

theorem existsBody_spec {W : World} {topic : Option CStr} (hm : At h W.cells b m)
    (hh : h ≠ .none) :
    logic.Safe S (do let tt ← kafkaTableFindLocked topic; pure tt.isSome) m fun r m' =>
      r = (topic.bind W.findTopic).isSome ∧ m' = m := by
  refine (kafkaTableFindLocked_spec hm hh).seq ?_
  rintro _ _ ⟨rfl, rfl⟩
  exact Safe.pure ⟨Option.isSome_map, rfl⟩

/-- A topic that is found is one of the connection's. -/
theorem World.mem_of_findTopic {W : World} {conn : Conn} {topic : CStr} {i : Nat} {r : Reg}
    (hc : W.conn = some conn) (hf : W.findTopic topic = some (i, r)) : r ∈ conn.topics.items := by
  have := (World.findTopic_some hf).1
  rw [World.regs_conn hc] at this
  exact List.mem_of_getElem? this

/-- No topic has the empty name. -/
theorem World.Ok.findTopic_zstr {W : World} (hW : W.Ok) {s : CStr} (hz : zstr (some s) = true) :
    W.findTopic s = none := by
  rcases Option.eq_none_or_eq_some (W.findTopic s) with hf | ⟨⟨i, reg⟩, hf⟩
  · exact hf
  · obtain ⟨conn, hc⟩ := World.conn_of_findTopic hf
    have hne := (hW.conn conn hc).nonempty reg (World.mem_of_findTopic hc hf)
    rw [(World.findTopic_some hf).2, hz] at hne
    cases hne

theorem sendBody_spec {W : World} {topic : Option CStr} {data : List UInt8}
    (hm : At h W.cells b m) (hh : h ≠ .none) :
    logic.Safe S (do
      match ← kafkaTableFindLocked topic with
      | none    => pure false
      | some tt =>
          let status ← tekKafkaTopicFeed tt data
          pure (decide (status = .success))) m fun r m' =>
      (r = true ∧ data.length ≤ messageMaxBytes ∧ ∃ i reg id,
        topic.bind W.findTopic = some (i, reg) ∧
        At h W.cells (b.sent ⟨id, reg.rkt, none, data, reg.tt⟩) m') ∨
      (r = false ∧ (topic.bind W.findTopic = none ∨ MayFail S) ∧ At h W.cells b m') := by
  refine (kafkaTableFindLocked_spec hm hh).seq ?_
  rintro _ m ⟨rfl, rfl⟩
  cases hf : topic.bind W.findTopic with
  | none => exact Safe.pure (Or.inr ⟨rfl, Or.inl rfl, hm⟩)
  | some x =>
      obtain ⟨i, reg⟩ := x
      obtain ⟨name, rfl, hx⟩ := Option.bind_eq_some_iff.mp hf
      obtain ⟨conn, hc⟩ := World.conn_of_findTopic hx
      have hreg := World.mem_of_findTopic hc hx
      refine (tekKafkaTopicFeed_spec hm hh (World.reg_mem hc hreg) (World.handle_mem hc hreg)
        (World.producer_mem hc) rfl (World.rk_mem hc)).seq ?_
      rintro _ m₁ (⟨rfl, hlen, id, hm₁⟩ | ⟨rfl, hmf, hm₁⟩)
      · exact Safe.pure (Or.inl ⟨rfl, hlen, i, reg, id, rfl, hm₁⟩)
      · exact Safe.pure (Or.inr ⟨rfl, Or.inr hmf, hm₁⟩)

/-- The counters are read at two moments, `s₁` and then `s₂`. -/
theorem getStatsBody_spec {W : World} {topic : Option CStr} (hm : At h W.cells b m)
    (hh : h ≠ .none) :
    logic.Safe S (do
      match ← kafkaTableFindLocked topic with
      | none    => pure (0, 0)
      | some tt => tekKafkaTopicGetStats tt) m fun (r : UInt32 × UInt32) m' =>
      (r = (0, 0) ∧ topic.bind W.findTopic = none ∧ At h W.cells b m') ∨
      ∃ i reg b' s₁ s₂, topic.bind W.findTopic = some (i, reg) ∧
        (S.Tracks h → b.lo <+: s₁ ∧ s₁ <+: s₂) ∧
        r = (UInt32.ofNat (successes reg.tt s₁), UInt32.ofNat (failures reg.tt s₂)) ∧
        b'.acc = b.acc ∧ b'.scratch = b.scratch ∧ b'.lo = s₂ ∧ At h W.cells b' m' := by
  refine (kafkaTableFindLocked_spec hm hh).seq ?_
  rintro _ m ⟨rfl, rfl⟩
  cases hf : topic.bind W.findTopic with
  | none => exact Safe.pure (Or.inl ⟨rfl, rfl, hm⟩)
  | some x =>
      obtain ⟨i, reg⟩ := x
      obtain ⟨name, rfl, hx⟩ := Option.bind_eq_some_iff.mp hf
      obtain ⟨conn, hc⟩ := World.conn_of_findTopic hx
      have hreg := World.mem_of_findTopic hc hx
      refine (tekKafkaTopicGetStats_spec hm hh (World.reg_mem hc hreg) rfl (World.producer_mem hc)
        rfl (World.rk_mem hc)).mono ?_
      rintro r m₁ ⟨b', s₁, s₂, hs, h₁, h₂, hacc, hscr, hlo, hm₁⟩
      exact Or.inr ⟨i, reg, b', s₁, s₂, rfl, hs, Prod.ext h₁ h₂, hacc, hscr, hlo, hm₁⟩

/-! ### The check of a parameter -/

/-- What a thread knows outside the lock: `J` of the guarded state, and its view. -/
structure Outside (J : Tab → Prop) (b : View) (m : Mode Tab View) : Prop where
  held : m.held = .none
  sh : J m.sh
  view : m.view = b

/-- Interference keeps `J`. -/
def Steady (S : Setting Tab View Ans) (J : Tab → Prop) : Prop :=
  ∀ {m m₁}, S.drift m m₁ → J m.sh → J m₁.sh

variable {J : Tab → Prop}

theorem Outside.drift {m₁ : Mode Tab View} (hm : Outside J b m) (hJ : Steady S J)
    (hd : S.drift m m₁) : Outside J b m₁ :=
  ⟨(S.drift_held hd).trans hm.held, hJ hd hm.sh, (S.drift_view hd).trans hm.view⟩

theorem scratchNew_spec (hJ : Steady S J) (hm : Outside J b m) :
    logic.Safe S (call .scratchNew) m fun (r : Option Nat) m' =>
      (r = none ∧ MayFail S ∧ Outside J b m') ∨
      ∃ p, r = some p ∧ Outside J { b with scratch := p :: b.scratch } m' := by
  refine Safe.op fun m₁ hd t d hi ho hs => ⟨trivial, fun a r T' d' hok ha => ?_⟩
  have hm₁ := hm.drift hJ hd
  cases a with
  | queueFull => cases ha
  | fail err text => cases ha; exact ⟨hi, m₁.view, ho, hs, Or.inl ⟨rfl, ⟨_, _, hok⟩, hm₁⟩⟩
  | ok =>
      cases ha
      refine ⟨⟨hi.named, hi.known, hi.conserved, hi.counted, hi.polls, hi.alive, hi.one, hi.frozen⟩,
        { b with scratch := d.nextScratch :: b.scratch }, ?_, fun htr => ?_, Or.inr ⟨_, rfl, ?_⟩⟩
      · change Function.update d.scratch t _ t = _
        rw [Function.update_self, show d.scratch t = b.scratch from hm₁.view ▸ ho]
      · have := hm₁.view ▸ hs htr
        exact ⟨this.named, this.acc, this.lo⟩
      · exact ⟨hm₁.held, hm₁.sh, rfl⟩

theorem scratchSet_spec {p : Nat} {name value : CStr} (hJ : Steady S J) (hm : Outside J b m)
    (hp : p ∈ b.scratch) :
    logic.Safe S (call (.scratchSet p name value)) m fun (r : Except String Unit) m' =>
      (r ≠ .ok () → MayFail S) ∧ Outside J b m' := by
  refine Safe.op fun m₁ hd t d hi ho hs => ?_
  have hm₁ := hm.drift hJ hd
  have hp' : p ∈ d.scratch t := by
    rw [show d.scratch t = m₁.view.scratch from ho, hm₁.view]; exact hp
  refine ⟨hp', fun a r T' d' hok ha => ?_⟩
  cases a with
  | queueFull => cases ha
  | fail err text => cases ha; exact ⟨hi, m₁.view, ho, hs, fun _ => ⟨_, _, hok⟩, hm₁⟩
  | ok => cases ha; exact ⟨hi, m₁.view, ho, hs, fun e => absurd rfl e, hm₁⟩

theorem scratchDestroy_spec {p : Nat} (hJ : Steady S J)
    (hm : Outside J { b with scratch := p :: b.scratch } m) :
    logic.Safe S (call (.scratchDestroy p)) m fun _ => Outside J b := by
  refine Safe.op fun m₁ hd t d hi ho hs => ?_
  have hm₁ := hm.drift hJ hd
  have hscr : d.scratch t = p :: b.scratch := by
    rw [show d.scratch t = m₁.view.scratch from ho, hm₁.view]
  refine ⟨show p ∈ d.scratch t by rw [hscr]; exact List.mem_cons_self, fun a r T' d' _ ha => ?_⟩
  cases ha
  refine ⟨⟨hi.named, hi.known, hi.conserved, hi.counted, hi.polls, hi.alive, hi.one, hi.frozen⟩, b,
    ?_, fun htr => ?_, hm₁.held, hm₁.sh, rfl⟩
  · change Function.update d.scratch t _ t = _
    rw [Function.update_self, hscr, List.erase_cons_head]
  · have := hm₁.view ▸ hs htr
    exact ⟨this.named, this.acc, this.lo⟩

/-- A parameter that passes has a name and a value; one that has both is refused by librdkafka
alone.  The throwaway configuration is destroyed either way. -/
theorem kafkaTableValidateParam_spec {name value : Option CStr} (hJ : Steady S J)
    (hm : Outside J b m) :
    logic.Safe S (kafkaTableValidateParam name value) m fun r m' =>
      (r = .ok () → ∃ n v, name = some n ∧ value = some v ∧ zstr (some n) = false) ∧
      (r ≠ .ok () → zstr name = true ∨ value = none ∨ MayFail S) ∧ Outside J b m' := by
  have hrefuse : ∀ text : String, (zstr name = true ∨ value = none ∨ MayFail S) → ∀ m', Outside J b m' →
      ((.error text : Except String Unit) = .ok () →
        ∃ n v, name = some n ∧ value = some v ∧ zstr (some n) = false) ∧
      ((.error text : Except String Unit) ≠ .ok () →
        zstr name = true ∨ value = none ∨ MayFail S) ∧ Outside J b m' :=
    fun text hf m' hm' => ⟨fun e => (by cases e), fun _ => hf, hm'⟩
  cases name with
  | none => exact Safe.pure (hrefuse _ (Or.inl rfl) m hm)
  | some n =>
      cases value with
      | none => exact Safe.pure (hrefuse _ (Or.inr (Or.inl rfl)) m hm)
      | some v =>
          simp only [kafkaTableValidateParam]
          by_cases hz : zstr (some n) = true
          · rw [if_pos hz]
            exact Safe.pure (hrefuse _ (Or.inl hz) m hm)
          · rw [if_neg hz]
            refine (scratchNew_spec hJ hm).seq ?_
            rintro _ m₁ (⟨rfl, hf, hm₁⟩ | ⟨p, rfl, hm₁⟩)
            · exact Safe.pure (hrefuse _ (Or.inr (Or.inr hf)) m₁ hm₁)
            refine (scratchSet_spec hJ hm₁ List.mem_cons_self).seq ?_
            rintro r m₂ ⟨hf, hm₂⟩
            cases r with
            | error text =>
                refine (scratchDestroy_spec hJ hm₂).seq fun _ m₃ hm₃ => ?_
                exact Safe.pure (hrefuse _ (Or.inr (Or.inr (hf (by simp)))) m₃ hm₃)
            | ok _ =>
                refine (scratchDestroy_spec hJ hm₂).seq fun _ m₃ hm₃ => ?_
                exact Safe.pure ⟨fun _ => ⟨n, v, rfl, rfl, by simpa using hz⟩, fun e => absurd rfl e, hm₃⟩

end TrigEmit
