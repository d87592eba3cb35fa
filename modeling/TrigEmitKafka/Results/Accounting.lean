import TrigEmitKafka.Results.Safety
import TrigEmitKafka.Rules.Turns

/-!
# Results — delivery accounting

* `accounted`: in every reachable state the messages accepted with a live record are, modulo
  2^32, its two counters and the reports not counted yet; each message is counted once, in the
  record it was sent with; a record that is created later counts none of the earlier messages;
  and every `kafka_topic_get_stats`, from its start to its return, reports two numbers that sum to
  the messages accepted for the record, when its flush leaves an empty queue and no message is
  accepted for the record after that.
-/

namespace TrigEmit

open Conc (Cfg Held Label LockCall LProg Prog headStep)
open Conc.Logic (Fits Safe reach_good shared)
open Store (Heap)

/-! ### What the calls do to the messages -/

/-- A call changes neither the reports counted nor the messages accepted, but that
`rd_kafka_produce` may accept one, with a number of its own. -/
theorem Op.act_messages {t : Nat} {o : Op} {a : Ans} {T T' : Tab} {d d' : Flow} {r : o.Res}
    (h : o.act t a T d = some (r, T', d')) : d'.served = d.served ∧ (d'.accepted = d.accepted ∨
      ∃ m : Message, m.id = d.accepted.length ∧ d'.accepted = d.accepted ++ [m]) := by
  cases o <;> cases a <;> simp only [Op.act] at h <;> first
    | (cases h; done)
    | (cases h; exact ⟨rfl, Or.inl rfl⟩)
    | (obtain ⟨_, _, e⟩ := Option.map_eq_some_iff.mp h; cases e; exact ⟨rfl, Or.inl rfl⟩)
    | (split at h <;> cases h; exact ⟨rfl, Or.inl rfl⟩)
    | (split at h <;> cases h; exact ⟨rfl, Or.inr ⟨_, rfl, rfl⟩⟩)

/-- A call frees records and hands out new ones, and no old pointer comes back. -/
theorem Op.act_topics {t : Nat} {o : Op} {a : Ans} {T T' : Tab} {d d' : Flow} {r : o.Res}
    (h : o.act t a T d = some (r, T', d')) : T.topics.Later T'.topics := by
  cases o <;> cases a <;> simp only [Op.act] at h <;> first
    | (cases h; done)
    | (cases h; first
        | exact Heap.Later.refl _
        | exact Heap.later_alloc _ _
        | exact Heap.later_free _ _
        | exact Heap.later_set _ _ _)
    | (obtain ⟨_, _, e⟩ := Option.map_eq_some_iff.mp h; cases e; exact Heap.Later.refl _)
    | (split at h <;> cases h; exact Heap.Later.refl _)

section runs

variable {s s' : Machine}

theorem served_mono (h : Cfg.Reach iface tableProg s s') : s.fr.served <+: s'.fr.served :=
  h.keeps (P := fun _ d => s.fr.served <+: d.served)
    (fun ha hp => by rw [(Op.act_messages ha).1]; exact hp)
    (fun he hp => hp.trans (Ev.act_messages he).1) (List.prefix_refl _)

theorem topics_later (h : Cfg.Reach iface tableProg s s') : s.sh.topics.Later s'.sh.topics :=
  h.keeps (P := fun T _ => s.sh.topics.Later T.topics)
    (fun ha hp => hp.trans (Op.act_topics ha))
    (fun {_ T _ _} _ (hp : s.sh.topics.Later T.topics) => hp) (.refl _)

/-- The messages are numbered as they are accepted. -/
theorem Machine.Reachable.numbered (h : s.Reachable) :
    s.fr.accepted.map (·.id) = List.range s.fr.accepted.length := by
  refine h.keeps (P := fun _ d => d.accepted.map (·.id) = List.range d.accepted.length) ?_ ?_ rfl
  · intro t o a T d r T' d' ha hp
    rcases (Op.act_messages ha).2 with e | ⟨m, hm, e⟩
    · rw [e]; exact hp
    · rw [e, List.map_append, hp, List.length_append, List.length_singleton, List.range_succ]
      simp [hm]
  · intro e T d d' he hp
    rw [(Ev.act_messages he).2]; exact hp

end runs

/-! ### The balance -/

/-- How many of the messages were sent with the record `p`. -/
def sentWith (p : Nat) (ms : List Message) : Nat := ms.countP fun m => m.tt = p

theorem sentWith_append (p : Nat) (ms ms' : List Message) :
    sentWith p (ms ++ ms') = sentWith p ms + sentWith p ms' := List.countP_append

/-- Every report counted is a success or a failure. -/
theorem sentWith_served (p : Nat) (s : List Served) :
    sentWith p (s.map (·.msg)) = successes p s + failures p s := by
  induction s with
  | nil => rfl
  | cons r s ih =>
      simp only [sentWith, successes, failures, List.map_cons, List.countP_cons] at ih ⊢
      rw [ih]
      by_cases hp : r.msg.tt = p <;> by_cases he : r.err = noError <;> simp [hp, he] <;> omega

/-- The messages accepted with a record are those counted and those not counted yet. -/
theorem Inv.balance {T : Tab} {d : Flow} (h : Inv T d) (p : Nat) :
    sentWith p d.accepted =
      successes p d.served + failures p d.served + sentWith p (uncounted d.inflight) := by
  rw [sentWith, h.conserved.countP_eq, ← sentWith_served, ← sentWith_append]; rfl

/-! ### The flush of `kafka_topic_get_stats` -/

/-- The flush of a producer, but for the length of the queue it leaves: the handle flushed. -/
def flushed : Option Nat → K (Option Nat)
  | none    => pure none
  | some tk => do
      let v ← call (.loadTk tk)
      match v.rk with
      | none    => pure none
      | some rk =>
          rdKafkaFlush rk
          pure (some rk)

/-- `kafka_topic_get_stats` in its critical section, to the end of its flush: the record it found,
and the handle flushed. -/
def statsFlushed (topic : Option CStr) : K (Option (Nat × Option Nat)) := do
  match ← kafkaTableFindLocked topic with
  | none   => pure none
  | some p => do
      let v ← call (.loadTopic p)
      let rk ← flushed v.producer
      pure (some (p, rk))

/-- What is left of it once the length of the queue was read. -/
def readStats (p : Nat) : K (UInt32 × UInt32) := do
  let r ← readCounters p
  LProg.unlock
  pure r

/-- The same, after the first counter was read. -/
def readFailed (p : Nat) (transferred : UInt32) : K (UInt32 × UInt32) := do
  let failed : UInt32 ← call (.loadFailed p)
  LProg.unlock
  pure (transferred, failed)

/-- What is left of it after its flush. -/
def statsRest : Option (Nat × Option Nat) → K (UInt32 × UInt32)
  | none              => do
      LProg.unlock
      pure (0, 0)
  | some (p, none)    => readStats p
  | some (p, some rk) => do
      let _ ← call (.rdKafkaOutqLen rk)
      readStats p

/-- The function is the two. -/
theorem kafkaTopicGetStats_eq (topic : Option CStr) :
    kafkaTopicGetStats topic = (do LProg.rdlock; statsFlushed topic) >>= statsRest := by
  refine congrArg (Prog.call LockCall.rdlock) (funext fun _ => ?_)
  show _ = statsFlushed topic >>= statsRest
  rw [statsFlushed, Prog.bind_assoc, Prog.bind_assoc]
  refine congrArg (Prog.bind (kafkaTableFindLocked topic)) (funext fun found => ?_)
  cases found with
  | none => rfl
  | some p =>
      refine congrArg (Prog.call (LockCall.op (Op.loadTopic p))) (funext fun (v : TekTopic) => ?_)
      obtain ⟨name, rkt, producer⟩ := v
      cases producer with
      | none => rfl
      | some tk =>
          refine congrArg (Prog.call (LockCall.op (Op.loadTk tk))) (funext fun (w : TekKafka) => ?_)
          obtain ⟨brokers, conf, rk, thread, threadStarted, running⟩ := w
          cases rk <;> rfl

section flush

variable {S : Conc.Setting Tab View Ans} {h : Held} {W : World} {b : View} {m : Conc.Mode Tab View}
  {n : CStr}

theorem flushed_spec {c : Cells} {tk rk : Nat} {v : TekKafka} {x : RdKafka} (hm : At h c b m)
    (hh : h ≠ .none) (hp : (tk, v) ∈ c.producers) (hrk : v.rk = some rk) (hr : (rk, x) ∈ c.rks) :
    logic.Safe S (flushed (some tk)) m fun r m' => r = some rk ∧ At h c b m' := by
  refine (loadTk_spec hm hh hp).seq ?_
  rintro _ _ ⟨rfl, rfl⟩
  simp only [hrk]
  refine Safe.seq (P := fun _ => At h c b) ?_ fun _ _ hm₁ => Safe.pure ⟨rfl, hm₁⟩
  exact (serveBegin_spec hm hh hr).seq fun _ _ hm₁ => serveEnd_spec hm₁ hh

/-- It comes to the record of the topic, and to the handle of the producer. -/
theorem statsFlushed_spec (hm : At h W.cells b m) (hh : h ≠ .none) :
    logic.Safe S (statsFlushed (some n)) m fun r m' => At h W.cells b m' ∧
      ((r = none ∧ W.findTopic n = none) ∨
        ∃ i reg rk, r = some (reg.tt, some rk) ∧ W.findTopic n = some (i, reg)) := by
  refine (kafkaTableFindLocked_spec hm hh).seq ?_
  rintro _ m ⟨rfl, rfl⟩
  cases hf : W.findTopic n with
  | none =>
      have hbind : (some n).bind W.findTopic = none := hf
      rw [hbind]
      exact Safe.pure ⟨hm, Or.inl ⟨rfl, rfl⟩⟩
  | some x =>
      obtain ⟨i, reg⟩ := x
      have hbind : (some n).bind W.findTopic = some (i, reg) := hf
      rw [hbind]
      obtain ⟨conn, hc⟩ := World.conn_of_findTopic hf
      have hreg := World.mem_of_findTopic hc hf
      refine (loadTopic_spec hm hh (World.reg_mem hc hreg)).seq ?_
      rintro _ _ ⟨rfl, rfl⟩
      refine (flushed_spec hm hh (World.producer_mem hc) rfl (World.rk_mem hc)).seq ?_
      rintro _ m₁ ⟨rfl, hm₁⟩
      exact Safe.pure ⟨hm₁, Or.inr ⟨i, reg, _, rfl, rfl⟩⟩

/-- **The flush, among other threads**: the table is held as it was read. -/
theorem statsFlushed_shared (hm : m.held = .none) :
    logic.Safe (shared TableInv enter) (do LProg.rdlock; statsFlushed (some n)) m fun r m' =>
      m'.held = .rd ∧ ((r = none ∧ m'.sh.record n = none) ∨
        ∃ p rk, r = some (p, some rk) ∧ m'.sh.record n = some p) := by
  refine Prog.wp_bind fun m₁ hm₁ => ⟨(hm₁.1).trans hm, fun T b hb => ?_⟩
  obtain ⟨⟨W, -, hT⟩, he⟩ := hb
  have hat : At .rd W.cells b ⟨.rd, T, b⟩ := at_enter hT he
  refine (statsFlushed_spec hat Held.noConfusion).mono ?_
  rintro r m' ⟨hm', hr⟩
  refine ⟨hm'.held, ?_⟩
  rw [hm'.sh.record_findTopic n]
  rcases hr with ⟨rfl, hf⟩ | ⟨i, reg, rk, rfl, hf⟩
  · rw [hf]
    exact Or.inl ⟨rfl, rfl⟩
  · rw [hf]
    exact Or.inr ⟨reg.tt, rk, rfl, rfl⟩

/-- With no such topic, it lets go of the table. -/
theorem statsRest_none (hm : m.held = .rd) :
    logic.Safe (shared TableInv enter) (statsRest none) m fun x _ => x = (0, 0) := by
  refine Prog.wp_bind fun m₁ hm₁ => ?_
  have hheld : m₁.held = .rd := hm₁.1.trans hm
  refine ⟨by rw [hheld]; exact Held.noConfusion, fun e => ?_, Safe.pure rfl⟩
  rw [hheld] at e
  cases e

end flush

/-! ### A reader of the counters -/

/-- Where a thread is that reads the counters of `p`: what it has read are the reports counted at
moments since `base`. -/
inductive Reading (p : Nat) (base now : List Served) : K (UInt32 × UInt32) → Prop where
  | waited {rk : Nat} : Reading p base now (statsRest (some (p, some rk)))
  | flushed : Reading p base now (readStats p)
  | transferred {σ : List Served} : base <+: σ → σ <+: now →
      Reading p base now (readFailed p (UInt32.ofNat (successes p σ)))
  | failed {σ σ' : List Served} : base <+: σ → σ <+: now → base <+: σ' → σ' <+: now →
      Reading p base now (do
        LProg.unlock
        pure (UInt32.ofNat (successes p σ), UInt32.ofNat (failures p σ')))
  | done {σ σ' : List Served} : base <+: σ → σ <+: now → base <+: σ' → σ' <+: now →
      Reading p base now (.ret (UInt32.ofNat (successes p σ), UInt32.ofNat (failures p σ')))

theorem Reading.mono {p : Nat} {base now now' : List Served} {q : K (UInt32 × UInt32)}
    (h : Reading p base now q) (hn : now <+: now') : Reading p base now' q := by
  cases h with
  | waited => exact .waited
  | flushed => exact .flushed
  | transferred h₁ h₂ => exact .transferred h₁ (h₂.trans hn)
  | failed h₁ h₂ h₃ h₄ => exact .failed h₁ (h₂.trans hn) h₃ (h₄.trans hn)
  | done h₁ h₂ h₃ h₄ => exact .done h₁ (h₂.trans hn) h₃ (h₄.trans hn)

/-- A step of the reader itself. -/
theorem Reading.headStep {p t : Nat} {base : List Served} {q q' : K (UInt32 × UInt32)}
    {l l' : Conc.Lock} {a : Ans} {T T' : Tab} {d d' : Flow} (h : Reading p base d.served q)
    (hi : Inv T d) (hl : ∀ o k, q = .call (.op o) k → ∀ p, o.record = some p → T.topics.Live p)
    (hb : base <+: d.served) (hs : headStep iface t a q l T d = some (q', l', T', d')) :
    Reading p base d'.served q' := by
  cases h with
  | waited => cases hs; exact .flushed
  | flushed =>
      have hlive := hl _ _ rfl p rfl
      cases hs
      rw [(hi.counted p hlive).1]
      exact .transferred hb (List.prefix_refl _)
  | transferred h₁ h₂ =>
      have hlive := hl _ _ rfl p rfl
      cases hs
      rw [(hi.counted p hlive).2]
      exact .failed h₁ h₂ hb (List.prefix_refl _)
  | failed h₁ h₂ h₃ h₄ => cases hs; exact .done h₁ h₂ h₃ h₄
  | done => cases hs

/-- What one step of the module does to a reader that does not finish in it. -/
theorem Reading.step {s s' : Machine} {l : Label Ans Ev TableCall} {t p : Nat}
    {topic : Option CStr} {base : List Served} {q : K (UInt32 × UInt32)} (hr : s.Reachable)
    (hs : s.step iface tableProg l = some s') (hl : l ≠ .finish t)
    (ht : s.thr t = some ⟨.getStats topic, q⟩) (h : Reading p base s.fr.served q)
    (hb : base <+: s.fr.served) :
    ∃ q', s'.thr t = some ⟨.getStats topic, q'⟩ ∧ Reading p base s'.fr.served q' := by
  have hmono : s.fr.served <+: s'.fr.served := served_mono (Cfg.Reach.refl.step l hs)
  cases l with
  | start u c =>
      simp only [Cfg.step] at hs
      split at hs
      · rename_i hu
        cases hs
        have hne : t ≠ u := fun e => by rw [e, hu] at ht; cases ht
        exact ⟨q, by simpa [Function.update_of_ne hne] using ht, h⟩
      · cases hs
  | finish u =>
      have hne : t ≠ u := fun e => hl (by rw [e])
      simp only [Cfg.step] at hs
      split at hs
      · cases hs
        exact ⟨q, by simpa [Function.update_of_ne hne] using ht, h⟩
      · cases hs
  | env e =>
      obtain ⟨d, hd, rfl⟩ := Option.map_eq_some_iff.mp hs
      exact ⟨q, ht, h.mono hmono⟩
  | step u a =>
      simp only [Cfg.step] at hs
      split at hs
      · cases hs
      · rename_i task hu
        obtain ⟨⟨q', l', T', d'⟩, hstep, rfl⟩ := Option.map_eq_some_iff.mp hs
        by_cases e : t = u
        · subst e
          obtain rfl : (⟨.getStats topic, q⟩ : Conc.Task Op Op.Res TableCall TableCall.Ret) = task :=
            Option.some.inj (ht.symm.trans hu)
          refine ⟨q', Function.update_self _ _ _, h.headStep hr.inv ?_ hb hstep⟩
          intro o k hk
          have hv : o.Valid t (s.lock.held t) s.sh s.fr := hr.good.valid (hk ▸ ht)
          exact fun _ hp => hv.record hp
        · exact ⟨q, by simpa [Function.update_of_ne e] using ht, h.mono hmono⟩

/-- The same over a run. -/
theorem Reading.run {s s' : Machine} {ls : List (Label Ans Ev TableCall)} {t p : Nat}
    {topic : Option CStr} {base : List Served} {q : K (UInt32 × UInt32)} (hr : s.Reachable)
    (hs : Cfg.run iface tableProg ls s = some s') (hl : .finish t ∉ ls)
    (ht : s.thr t = some ⟨.getStats topic, q⟩) (h : Reading p base s.fr.served q)
    (hb : base <+: s.fr.served) :
    ∃ q', s'.thr t = some ⟨.getStats topic, q'⟩ ∧ Reading p base s'.fr.served q' := by
  induction ls generalizing s q with
  | nil => cases hs; exact ⟨q, ht, h⟩
  | cons l ls ih =>
      obtain ⟨s₁, h₁, h₂⟩ := Option.bind_eq_some_iff.mp hs
      obtain ⟨q₁, ht₁, hq₁⟩ := h.step hr h₁ (fun e => hl (e ▸ List.mem_cons_self)) ht hb
      exact ih (hr.step l h₁) h₂ (fun hm => hl (List.mem_cons_of_mem _ hm)) ht₁ hq₁
        (hb.trans (served_mono (Cfg.Reach.refl.step l h₁)))

/-! ### The account -/

theorem successes_mono {p : Nat} {s s' : List Served} (h : s <+: s') :
    successes p s ≤ successes p s' := h.sublist.countP_le

theorem failures_mono {p : Nat} {s s' : List Served} (h : s <+: s') :
    failures p s ≤ failures p s' := h.sublist.countP_le

/-- What the call has read when it returns, if it reads the counters of `p`. -/
theorem Reading.ends {s s' : Machine} {ls : List (Label Ans Ev TableCall)} {t p : Nat}
    {topic : Option CStr} {x : UInt32 × UInt32} {q : K (UInt32 × UInt32)} (hr : s.Reachable)
    (hs : Cfg.run iface tableProg ls s = some s') (hl : .finish t ∉ ls)
    (ht : s.thr t = some ⟨.getStats topic, q⟩) (h : Reading p s.fr.served s.fr.served q)
    (hx : s'.thr t = some ⟨.getStats topic, .ret x⟩) : ∃ σ σ', s.fr.served <+: σ ∧
      σ <+: s'.fr.served ∧ s.fr.served <+: σ' ∧ σ' <+: s'.fr.served ∧
      x = (UInt32.ofNat (successes p σ), UInt32.ofNat (failures p σ')) := by
  obtain ⟨q', hq', hread⟩ := Reading.run hr hs hl ht h (List.prefix_refl s.fr.served)
  obtain rfl : q' = .ret x := by
    have htask := Option.some.inj (hq'.symm.trans hx)
    simpa using htask
  cases hread with
  | done h₁ h₂ h₃ h₄ => exact ⟨_, _, h₁, h₂, h₃, h₄, rfl⟩

/-- **Stats add up**: with an empty queue to begin with, and no message accepted for the record
since, what was counted at two moments sums to the messages accepted. -/
theorem stats_sum {s s' : Machine} {p : Nat} {σ σ' : List Served} (hr : s.Reachable)
    (hs : Cfg.Reach iface tableProg s s') (he : s.fr.inflight = [])
    (hacc : sentWith p s'.fr.accepted = sentWith p s.fr.accepted) (h₁ : s.fr.served <+: σ)
    (h₂ : σ <+: s'.fr.served) (h₃ : s.fr.served <+: σ') (h₄ : σ' <+: s'.fr.served) :
    successes p σ + failures p σ' = sentWith p s'.fr.accepted := by
  have hbal := hr.inv.balance p
  have hr' : s'.Reachable := hr.trans hs
  have hbal' := hr'.inv.balance p
  rw [he, show sentWith p (uncounted []) = 0 from rfl] at hbal
  -- nothing is counted for the record after the queue was empty
  have hs₁ := successes_mono (p := p) h₁
  have hs₂ := successes_mono (p := p) h₂
  have hf₁ := failures_mono (p := p) h₃
  have hf₂ := failures_mono (p := p) h₄
  have hm := failures_mono (p := p) (h₁.trans h₂)
  have hm' := successes_mono (p := p) (h₁.trans h₂)
  omega

/-- In `s` the flush is over of the `kafka_topic_get_stats` of `n` that `t` is at, and in `s'` it
returns `x`: the counters of the record of `n`, each read at a moment in between.  If the flush
left an empty queue, and no message was accepted for the record since, they sum to the messages
accepted for it. -/
def StatsOf (s s' : Machine) (t : Nat) (n : CStr) (x : UInt32 × UInt32) : Prop :=
  (s.sh.record n = none ∧ x = (0, 0)) ∨
  ∃ p rk, s.sh.record n = some p ∧ s.next t = some (.rdKafkaOutqLen rk) ∧
    (∃ σ σ', s.fr.served <+: σ ∧ σ <+: s'.fr.served ∧ s.fr.served <+: σ' ∧
      σ' <+: s'.fr.served ∧ x = (UInt32.ofNat (successes p σ), UInt32.ofNat (failures p σ'))) ∧
    (s.fr.inflight = [] → sentWith p s'.fr.accepted = sentWith p s.fr.accepted →
      x.1 + x.2 = UInt32.ofNat (sentWith p s'.fr.accepted))

/-- Every `kafka_topic_get_stats` passes the end of its flush. -/
theorem statsOf {s s' : Machine} {ls : List (Label Ans Ev TableCall)} {t : Nat} {n : CStr}
    {x : UInt32 × UInt32} (hr : s.Reachable)
    (hs : Cfg.run iface tableProg (.start t (.getStats (some n)) :: ls) s = some s')
    (hl : .finish t ∉ ls) (hx : s'.thr t = some ⟨.getStats (some n), .ret x⟩) :
    ∃ ls₁ s₁ ls₂, ls = ls₁ ++ ls₂ ∧
      Cfg.run iface tableProg (.start t (.getStats (some n)) :: ls₁) s = some s₁ ∧
      Cfg.run iface tableProg ls₂ s₁ = some s' ∧ StatsOf s₁ s' t n x := by
  obtain ⟨s₀, h₀, hrun⟩ := Option.bind_eq_some_iff.mp hs
  have hr₀ : Machine.Reachable s₀ := hr.step _ h₀
  obtain ⟨ht₀, m₀, hm₀, hfits⟩ := hr.good.start h₀
  have hprog : tableProg (.getStats (some n)) = _ := kafkaTopicGetStats_eq (some n)
  rw [hprog] at ht₀
  obtain ⟨ls₁, s₁, ls₂, v, m₁, rfl, h₁, h₂, ht₁, hm₁, hrd, hQ⟩ :=
    hr₀.good.part_ends hrun hl ht₀ hfits (statsFlushed_shared hm₀) hx
  have hl₂ : Label.finish t ∉ ls₂ := fun hmem => hl (List.mem_append_right _ hmem)
  have hr₁ : Machine.Reachable s₁ := hr₀.trans (Cfg.reach_of_run h₁)
  refine ⟨ls₁, s₁, ls₂, rfl, Option.bind_eq_some_iff.mpr ⟨_, h₀, h₁⟩, h₂, ?_⟩
  -- the table is held as the part left it
  have hsh : m₁.sh = s₁.sh := by
    obtain ⟨m₂, hd, -, hm₂, -⟩ := hm₁
    exact (hd.2.1 (by rw [hrd]; exact Held.noConfusion)).symm.trans hm₂
  rw [hsh] at hQ
  rcases hQ with ⟨rfl, hn⟩ | ⟨p, rk, rfl, hn⟩
  · -- no such topic
    obtain ⟨ls₃, s₂, ls₄, v, -, rfl, h₃, h₄, hv, -, rfl⟩ :=
      hr₁.good.part_ends (q := statsRest none) (f := .ret) h₂ hl₂ ht₁ hm₁ (statsRest_none hrd) hx
    have hl₄ : Label.finish t ∉ ls₄ := fun hmem => hl₂ (List.mem_append_right _ hmem)
    have hret := (reach_good hr₁.good (Cfg.reach_of_run h₃)).stays h₄ hl₄ hv
    have htask := Option.some.inj (hx.symm.trans hret)
    exact Or.inl ⟨hn, by simpa using htask⟩
  · obtain ⟨σ, σ', h₃, h₄, h₅, h₆, rfl⟩ := Reading.ends hr₁ h₂ hl₂ ht₁ .waited hx
    refine Or.inr ⟨p, rk, hn, Cfg.next_eq_some.mpr ⟨_, _, ht₁⟩, ⟨σ, σ', h₃, h₄, h₅, h₆, rfl⟩, ?_⟩
    intro he hacc
    rw [← UInt32.ofNat_add, stats_sum hr₁ (Cfg.reach_of_run h₂) he hacc h₃ h₄ h₅ h₆]

/-- The messages and the counters agree. -/
structure Accounted (s : Machine) : Prop where
  /-- What was accepted with a live record is what it counted and what is not counted yet. -/
  balance : ∀ p, s.sh.topics.Live p → UInt32.ofNat (sentWith p s.fr.accepted) =
    (s.fr.report p).transferred + (s.fr.report p).failed +
      UInt32.ofNat (sentWith p (uncounted s.fr.inflight))
  /-- Each message is counted once, or not yet. -/
  once : s.fr.accepted.Perm (s.fr.served.map (·.msg) ++ uncounted s.fr.inflight) ∧
    s.fr.accepted.Nodup
  /-- A report is counted in the record the message was sent with. -/
  own : ∀ p, s.sh.topics.Live p →
    (s.fr.report p).transferred = UInt32.ofNat (successes p s.fr.served) ∧
    (s.fr.report p).failed = UInt32.ofNat (failures p s.fr.served)
  /-- A record created later is the record of no earlier message. -/
  later : ∀ (s' : Machine) p, Cfg.Reach iface tableProg s s' → ¬ s.sh.topics.Live p →
    s'.sh.topics.Live p → ∀ m ∈ s.fr.accepted, m.tt ≠ p
  /-- A `kafka_topic_get_stats` that is called now and is about to return `x` has passed the end of
  its flush. -/
  stats : ∀ (s' : Machine) ls t n x,
    Cfg.run iface tableProg (.start t (.getStats (some n)) :: ls) s = some s' →
    .finish t ∉ ls → s'.thr t = some ⟨.getStats (some n), .ret x⟩ →
    ∃ ls₁ s₁ ls₂, ls = ls₁ ++ ls₂ ∧
      Cfg.run iface tableProg (.start t (.getStats (some n)) :: ls₁) s = some s₁ ∧
      Cfg.run iface tableProg ls₂ s₁ = some s' ∧ StatsOf s₁ s' t n x

/-- **Delivery accounting is conserved.** -/
theorem accounted {s : Machine} (h : s.Reachable) : Accounted s where
  balance p hp := by
    obtain ⟨ht, hf⟩ := h.inv.counted p hp
    rw [ht, hf, ← UInt32.ofNat_add, ← UInt32.ofNat_add, h.inv.balance p]
  once := by
    refine ⟨h.inv.conserved, List.Nodup.of_map (·.id) ?_⟩
    rw [h.numbered]; exact List.nodup_range
  own p hp := h.inv.counted p hp
  later s' p hr hn hl m hm e := by
    have hlt := h.inv.known m hm
    rcases (topics_later hr).live p hl with hl | hle
    · exact hn hl
    · omega
  stats s' ls t n x hs hl hx := statsOf h hs hl hx

/-! ### A run -/

/-- Two messages to a topic, one delivered and one refused by the broker, then the topic is
dismissed and made again for a third, which is delivered. -/
def recreated : List (Label Ans Ev TableCall) :=
  calling 0 (.connect (some (.lit "b"))) 20 ++ calling 0 (.create (some (.lit "t"))) 15 ++
    calling 1 (.send (some (.lit "t")) [1]) 11 ++ calling 1 (.send (some (.lit "t")) [2]) 11 ++
    [.env (.cbEnter 0 (.poll 0) noError), .env (.cbCount 0 5), .env (.cbReturn 0)] ++
    calling 2 (.dismiss (some (.lit "t"))) 22 ++
    [.env (.cbEnter 0 (.session 2) (-192)), .env (.cbCount 0 7)] ++
    calling 0 (.create (some (.lit "t"))) 16 ++ calling 1 (.send (some (.lit "t")) [3]) 11 ++
    [.env (.cbReturn 0), .env (.cbEnter 0 (.poll 0) noError), .env (.cbCount 0 9),
      .env (.cbReturn 0)]

/-- Another session then asks for the statistics of the topic: its first `k` steps. -/
def asking (k : Nat) : List (Label Ans Ev TableCall) :=
  .start 3 (.getStats (some (.lit "t"))) :: List.replicate k (.step 3 .ok)

/-- What a session that asked for statistics is about to return. -/
def Machine.answer (s : Machine) (t : Nat) : Option (Option CStr × UInt32 × UInt32) :=
  match s.thr t with
  | some ⟨.getStats topic, .ret x⟩ => some (topic, x)
  | _                              => none

theorem Machine.thr_of_answer {s : Machine} {t : Nat} {topic : Option CStr} {x : UInt32 × UInt32}
    (h : s.answer t = some (topic, x)) : s.thr t = some ⟨.getStats topic, .ret x⟩ := by
  unfold Machine.answer at h
  split at h
  · rename_i topic' x' ht
    cases h
    exact ht
  · cases h

/-- After `k` steps of it the queue is empty, and one message was accepted for the topic's record. -/
def settledFor (s : Machine) (k : Nat) : Bool :=
  (Cfg.run iface tableProg (asking k) s).elim false fun s₁ =>
    s₁.fr.inflight.isEmpty && s₁.sh.record (.lit "t") = some 1 && sentWith 1 s₁.fr.accepted = 1

theorem of_settledFor {s s₁ : Machine} {k : Nat} (h : settledFor s k = true)
    (hs : Cfg.run iface tableProg (asking k) s = some s₁) : s₁.fr.inflight = [] ∧
      s₁.sh.record (.lit "t") = some 1 ∧ sentWith 1 s₁.fr.accepted = 1 := by
  rw [settledFor, hs] at h
  simpa [and_assoc] using h

/-- The first record counted both its reports, the second one, and the statistics are of the
second. -/
theorem recreated_accounted : ∃ s s' : Machine,
    Cfg.run iface tableProg recreated Machine.initial = some s ∧
      Cfg.run iface tableProg (asking 12) s = some s' ∧
      (s.fr.report 0).transferred = 1 ∧ (s.fr.report 0).failed = 1 ∧
      s.sh.kt.topics.items = [1] ∧ Accounted s ∧
      s'.thr 3 = some ⟨.getStats (some (.lit "t")), .ret (1, 0)⟩ ∧
      (1 : UInt32) + 0 = UInt32.ofNat (sentWith 1 s'.fr.accepted) := by
  have hrun : (Cfg.run iface tableProg recreated Machine.initial).map (fun s =>
      ((s.fr.report 0).transferred, (s.fr.report 0).failed, s.sh.kt.topics.items,
        (List.range 13).all (settledFor s))) = some (1, 1, [1], true) := by
    decide +kernel
  have hasked : (Cfg.run iface tableProg recreated Machine.initial).bind (fun s =>
      (Cfg.run iface tableProg (asking 12) s).bind fun s' => Machine.answer s' 3) =
        some (some (.lit "t"), 1, 0) := by
    decide +kernel
  obtain ⟨s, hs, he⟩ := Option.map_eq_some_iff.mp hrun
  rw [hs, Option.bind_some] at hasked
  obtain ⟨s', hs', hans⟩ := Option.bind_eq_some_iff.mp hasked
  simp only [Prod.mk.injEq] at he
  obtain ⟨h₁, h₂, h₃, hall⟩ := he
  have hacc : Accounted s := accounted (Cfg.reach_of_run hs)
  have hret := Machine.thr_of_answer hans
  have hsettled : ∀ k, k < 13 → settledFor s k = true := fun k hk =>
    List.all_eq_true.mp hall k (List.mem_range.mpr hk)
  refine ⟨s, s', hs, hs', h₁, h₂, h₃, hacc, hret, ?_⟩
  have hfin : (Label.finish 3 : Label Ans Ev TableCall) ∉ List.replicate 12 (.step 3 .ok) := by
    intro hmem
    cases List.eq_of_mem_replicate hmem
  obtain ⟨ls₁, s₁, ls₂, hls, hs₁, -, hstats⟩ := hacc.stats s' _ 3 (.lit "t") (1, 0) hs' hfin hret
  -- the end of the flush is one of the states passed
  obtain ⟨hlen, hls₁, -⟩ := List.append_eq_replicate_iff.mp hls.symm
  rw [hls₁] at hs₁
  obtain ⟨he, hrec, hone⟩ := of_settledFor (hsettled ls₁.length (by omega)) hs₁
  obtain ⟨-, -, hone'⟩ := of_settledFor (hsettled 12 (by decide)) hs'
  rcases hstats with ⟨hn, -⟩ | ⟨p, rk, hp, -, -, hsum⟩
  · rw [hrec] at hn
    cases hn
  · obtain rfl : 1 = p := Option.some.inj (hrec.symm.trans hp)
    exact hsum he (hone'.trans hone.symm)

end TrigEmit
