import TrigEmitKafka.Results.Safety
import TrigEmitKafka.Rules.Confinement

/-!
# Results — who touches a record's throttle

The throttle of a record is plain fields with no lock: `dr_msg_cb` reads and writes them, on the
thread librdkafka runs it on, and so does `tek_kafka_topic_dispose`.  They are meant for the poll
thread alone, and for another thread only once that one was joined (`Confined`).

* `twoCallbacks_race`: librdkafka may run two callbacks about one record at the same time, one on
  the poll thread and one on a session in `rd_kafka_flush`.
* `confined_of_spares`: in every run in which librdkafka runs callbacks on a session only in
  `rd_kafka_destroy`, and no registered topic is disposed of, the throttles are confined.
-/

namespace TrigEmit

open Conc (Cfg Duty Label Lock)
open Store (Heap)

/-! ### Where callbacks run -/

/-- The thread the callback of a message runs on. -/
def Stage.thread : Stage → Option Thread
  | .queued      => none
  | .running u _ => some u
  | .counted u   => some u

/-- A callback runs on the thread. -/
def Flow.RunsOn (d : Flow) (u : Thread) : Prop := ∃ q ∈ d.inflight, q.stage.thread = some u

/-- The thread is in a call that serves delivery reports. -/
def Flow.Serves (d : Flow) : Thread → Prop
  | .session t => t ∈ d.serving
  | .poll thr  => d.phase thr = .polling

/-- The thread is inside code that touches the throttle of the record `p`: in a callback about it,
or at the end of its `tek_kafka_topic_dispose`. -/
def Inside (s : Machine) (u : Thread) (p : Nat) : Prop :=
  (∃ q ∈ s.fr.inflight, q.msg.tt = p ∧ q.stage.thread = some u) ∨
    ∃ t, u = .session t ∧ s.next t = some (.flushSuppressed p)

/-- A callback starts on a thread that serves reports and runs no other, and the call that serves
them does not return before its callback has. -/
def Proper (s : Machine) : Label Ans Ev TableCall → Prop
  | .env (.cbEnter _ u _)  => s.fr.Serves u ∧ ¬ s.fr.RunsOn u
  | .env (.pollReturn thr) => ¬ s.fr.RunsOn (.poll thr)
  | .step t _              => ¬ s.fr.RunsOn (.session t)
  | _                      => True

instance (d : Flow) (u : Thread) : Decidable (d.RunsOn u) :=
  decidable_of_iff ((d.inflight.any fun q => decide (q.stage.thread = some u)) = true)
    (by simp [Flow.RunsOn])

instance (d : Flow) : (u : Thread) → Decidable (d.Serves u)
  | .session t => inferInstanceAs (Decidable (t ∈ d.serving))
  | .poll thr  => inferInstanceAs (Decidable (d.phase thr = .polling))

/-- The step is one librdkafka may take. -/
def properStep (s : Machine) : Label Ans Ev TableCall → Bool
  | .env (.cbEnter _ u _)  => decide (s.fr.Serves u) && !decide (s.fr.RunsOn u)
  | .env (.pollReturn thr) => !decide (s.fr.RunsOn (.poll thr))
  | .step t _              => !decide (s.fr.RunsOn (.session t))
  | _                      => true

theorem proper_of_properStep {s : Machine} {l : Label Ans Ev TableCall}
    (h : properStep s l = true) : Proper s l := by
  cases l with
  | env e => cases e <;> simp_all [Proper, properStep]
  | step t a => simpa [Proper, properStep] using h
  | start t c => trivial
  | finish t => trivial

/-- **Confinement.** -/
structure Confined (s : Machine) : Prop where
  /-- No two threads touch one throttle. -/
  alone : ∀ p u v, Inside s u p → Inside s v p → u = v
  /-- A thread that does is the poll thread, unless the poll thread was joined. -/
  joined : ∀ p u, Inside s u p → (∃ thr, u = .poll thr) ∨ ∀ thr, ¬ s.sh.threads.Live thr

/-! ### What a step does to the callbacks and to the threads -/

/-- A call starts no callback. -/
theorem Op.act_runsOn {t : Nat} {o : Op} {a : Ans} {T T' : Tab} {d d' : Flow} {r : o.Res}
    (h : o.act t a T d = some (r, T', d')) {u : Thread} (hu : d'.RunsOn u) : d.RunsOn u := by
  have hin : ∀ q ∈ d'.inflight, q ∈ d.inflight ∨ q.stage = .queued := by
    cases o <;> cases a <;> simp only [Op.act] at h <;> first
      | (cases h; done)
      | (cases h; exact fun q hq => Or.inl hq)
      | (obtain ⟨_, _, e⟩ := Option.map_eq_some_iff.mp h; cases e; exact fun q hq => Or.inl hq)
      | (split at h <;> cases h; exact fun q hq => Or.inl hq)
      | (split at h <;> cases h
         intro q hq
         rcases List.mem_append.mp hq with hq | hq
         · exact Or.inl hq
         · rw [List.mem_singleton.mp hq]
           exact Or.inr rfl)
  obtain ⟨q, hq, hs⟩ := hu
  rcases hin q hq with hq | hstage
  · exact ⟨q, hq, hs⟩
  · rw [hstage] at hs
    cases hs

/-- The environment starts a callback where one enters, and nowhere else. -/
theorem Ev.act_runsOn {e : Ev} {T : Tab} {d d' : Flow} (h : e.act T d = some d') {u : Thread}
    (hu : d'.RunsOn u) : d.RunsOn u ∨ ∃ i err, e = .cbEnter i u err := by
  obtain ⟨q, hq, hstage⟩ := hu
  cases e with
  | cbEnter i w err =>
      simp only [Ev.act] at h
      split at h <;> cases h
      rcases List.mem_or_eq_of_mem_set hq with hq | rfl
      · exact Or.inl ⟨q, hq, hstage⟩
      · cases hstage
        exact Or.inr ⟨i, err, rfl⟩
  | cbCount i now =>
      simp only [Ev.act] at h
      split at h
      · rename_i m w err hi
        cases h
        rcases List.mem_or_eq_of_mem_set hq with hq | rfl
        · exact Or.inl ⟨q, hq, hstage⟩
        · exact Or.inl ⟨_, List.mem_of_getElem? hi, hstage⟩
      · cases h
  | cbReturn i =>
      simp only [Ev.act] at h
      split at h <;> cases h
      exact Or.inl ⟨q, List.mem_of_mem_eraseIdx hq, hstage⟩
  | pollCheck thr =>
      simp only [Ev.act] at h
      split at h <;> cases h
      exact Or.inl ⟨q, hq, hstage⟩
  | pollReturn thr =>
      simp only [Ev.act] at h
      split at h <;> cases h
      exact Or.inl ⟨q, hq, hstage⟩

/-- A poll thread leaves `rd_kafka_poll` where that returns, and nowhere else. -/
theorem Ev.act_polling {e : Ev} {T : Tab} {d d' : Flow} (h : e.act T d = some d') {thr : Nat}
    (hp : d.phase thr = .polling) (he : e ≠ .pollReturn thr) : d'.phase thr = .polling := by
  cases e with
  | cbEnter i u err => simp only [Ev.act] at h; split at h <;> cases h; exact hp
  | cbCount i now => simp only [Ev.act] at h; split at h <;> cases h; exact hp
  | cbReturn i => simp only [Ev.act] at h; split at h <;> cases h; exact hp
  | pollCheck thr' =>
      simp only [Ev.act] at h
      split at h
      · rename_i hph _
        cases h
        have hne : thr ≠ thr' := by
          rintro rfl
          rw [hp] at hph
          cases hph
        exact (Function.update_of_ne hne _ _).trans hp
      · cases h
  | pollReturn thr' =>
      simp only [Ev.act] at h
      split at h <;> cases h
      have hne : thr ≠ thr' := fun e => he (e ▸ rfl)
      exact (Function.update_of_ne hne _ _).trans hp

/-! ### Runs -/

/-- A callback starts on a session only in `rd_kafka_destroy`, and no handle of a topic is
destroyed.  A teardown destroys the handles of its topics first, so in a run of such steps there is
no topic, and so no message, left when `rd_kafka_destroy` is called. -/
def Spares (s : Machine) : Label Ans Ev TableCall → Prop
  | .env (.cbEnter _ (.session t) _) => ∃ rk, s.next t = some (.rdKafkaDestroy rk)
  | .step t _                        => ∀ h, s.next t ≠ some (.rdKafkaTopicDestroy h)
  | _                                => True

/-- The step starts no callback on a session, and destroys no handle. -/
def sparingStep (s : Machine) : Label Ans Ev TableCall → Bool
  | .env (.cbEnter _ (.session _) _) => false
  | .step t _                        =>
      match s.next t with
      | some (.rdKafkaTopicDestroy _) => false
      | _                             => true
  | _                                => true

theorem spares_of_sparingStep {s : Machine} {l : Label Ans Ev TableCall}
    (h : sparingStep s l = true) : Spares s l := by
  cases l with
  | env e =>
      cases e with
      | cbEnter i u err =>
          cases u with
          | session t => cases h
          | poll thr => trivial
      | _ => trivial
  | step t a =>
      intro p hp
      simp [sparingStep, hp] at h
  | start t c => trivial
  | finish t => trivial

/-- Where callbacks run: on a session in `rd_kafka_destroy`, or on the poll thread, of which there
is at most one. -/
structure Placed (s : Machine) : Prop where
  sessions : ∀ t, s.fr.RunsOn (.session t) → ∃ rk, s.next t = some (.rdKafkaDestroy rk)
  polls : ∀ thr, s.fr.RunsOn (.poll thr) → s.fr.phase thr = .polling
  one : ∀ thr thr', s.sh.threads.Live thr → s.sh.threads.Live thr' → thr = thr'

theorem placed_initial : Placed Machine.initial where
  sessions t h := by
    obtain ⟨q, hq, -⟩ := h
    cases hq
  polls thr h := by
    obtain ⟨q, hq, -⟩ := h
    cases hq
  one thr thr' h := by simp [Machine.initial, Cfg.init, Tab.init, Heap.Live] at h

variable {s s' : Machine} {l : Label Ans Ev TableCall}

/-- A callback that runs after a step ran before it, or has entered with it. -/
theorem runsOn_step (hs : s.step iface tableProg l = some s') {u : Thread}
    (hu : s'.fr.RunsOn u) : s.fr.RunsOn u ∨ ∃ i err, l = .env (.cbEnter i u err) := by
  rcases Cfg.step_act hs with ⟨-, hfr⟩ | ⟨t, o, a, r, -, -, ha⟩ | ⟨-, e, rfl, he⟩
  · exact Or.inl (hfr ▸ hu)
  · exact Or.inl (Op.act_runsOn ha hu)
  · refine (Ev.act_runsOn he hu).imp id ?_
    rintro ⟨i, err, rfl⟩
    exact ⟨i, err, rfl⟩

/-- A poll thread with a callback stays in `rd_kafka_poll`. -/
theorem polling_step (hr : s.Reachable) (hs : s.step iface tableProg l = some s') {thr : Nat}
    (hp : s.fr.phase thr = .polling) (hl : l ≠ .env (.pollReturn thr)) :
    s'.fr.phase thr = .polling := by
  rcases Cfg.step_act hs with ⟨-, hfr⟩ | ⟨t, o, a, r, -, -, ha⟩ | ⟨-, e, rfl, he⟩
  · exact hfr ▸ hp
  · have hlive : s.sh.threads.Live thr := hr.inv.alive thr (by rw [hp]; exact PollPhase.noConfusion)
    exact (Op.act_phase ha hlive).trans hp
  · exact Ev.act_polling he hp fun e => hl (congrArg Label.env e)

/-- **A step** keeps the callbacks in their places. -/
theorem Placed.step (h : Placed s) (hr : s.Reachable)
    (hcreate : ∀ t tk, s.next t = some (.pthreadCreate tk) → s.sh.Threadless)
    (hp : Proper s l) (hsp : Spares s l) (hs : s.step iface tableProg l = some s') :
    Placed s' where
  sessions t hu := by
    rcases runsOn_step hs hu with hu₀ | ⟨i, err, rfl⟩
    · obtain ⟨rk, hnext⟩ := h.sessions t hu₀
      refine ⟨rk, Cfg.step_next hs hnext ?_⟩
      rintro a rfl
      exact hp hu₀
    · obtain ⟨rk, hnext⟩ := hsp
      exact ⟨rk, Cfg.step_next hs hnext fun a e => by cases e⟩
  polls thr hu := by
    rcases runsOn_step hs hu with hu₀ | ⟨i, err, rfl⟩
    · refine polling_step hr hs (h.polls thr hu₀) ?_
      rintro rfl
      exact hp hu₀
    · exact polling_step hr hs hp.1 fun e => by cases e
  one thr thr' hl hl' := by
    rcases Cfg.step_act hs with ⟨hsh, -⟩ | ⟨t, o, a, r, -, hnext, ha⟩ | ⟨hsh, -⟩
    · exact h.one thr thr' (hsh ▸ hl) (hsh ▸ hl')
    · rcases Op.act_threads ha with hsub | ⟨tk, rfl, hT⟩
      · exact h.one thr thr' (hsub thr hl) (hsub thr' hl')
      · -- there was no thread, so the new one is alone
        have hnew : ∀ u, s'.sh.threads.Live u → u = s.sh.threads.next := by
          intro u hu
          by_contra hne
          refine hcreate t tk hnext u ?_
          rw [hT, Heap.Live, Heap.get_alloc_ne hne] at hu
          exact hu
        exact (hnew thr hl).trans (hnew thr' hl').symm
    · exact h.one thr thr' (hsh ▸ hl) (hsh ▸ hl')

/-- A run of what librdkafka may do, that spares the throttles. -/
abbrev SparingRun (ls : List (Label Ans Ev TableCall)) (s : Machine) : Prop :=
  Cfg.RunBy iface tableProg (fun s l => Proper s l ∧ Spares s l) Machine.initial ls s

variable {ls : List (Label Ans Ev TableCall)}

theorem SparingRun.reachable (h : SparingRun ls s) : s.Reachable := Cfg.RunBy.reach h

/-- What a thread that writes is about to do, the duty allows. -/
theorem SparingRun.needs (h : SparingRun ls s) {t : Nat} {o : Op} (ht : s.next t = some o)
    (hwr : ∀ m, o.Valid t m s.sh s.fr → m = .wr) : keepsOff.stops o ∨ keepsOff.needs o s.sh := by
  obtain ⟨c, k, hthr⟩ := Cfg.next_eq_some.mp ht
  have hheld : s.lock.held t ≠ .none := by
    rw [hwr _ (h.reachable.good.valid hthr)]
    exact Conc.Held.noConfusion
  refine Duty.needs_of_runBy (C := fun _ => True) (fun c _ => tableProg_keepsOff c) ?_
    Machine.good_initial h trivial hthr hheld
  rintro s t a o ⟨-, hsp⟩ hnext ⟨p, rfl⟩
  exact hsp p hnext

/-- A poll thread is started where there is none. -/
theorem SparingRun.threadless (h : SparingRun ls s) {t tk : Nat}
    (ht : s.next t = some (.pthreadCreate tk)) : s.sh.Threadless := by
  rcases h.needs ht fun m hv => hv.1 with ⟨p, e⟩ | hneeds
  · cases e
  · exact hneeds

/-- No throttle is flushed. -/
theorem SparingRun.unflushed (h : SparingRun ls s) (t p : Nat) :
    s.next t ≠ some (.flushSuppressed p) := by
  intro ht
  rcases h.needs ht fun m hv => hv.1 with ⟨p, e⟩ | hneeds
  · cases e
  · exact hneeds

/-- **A run** keeps the callbacks in their places. -/
theorem SparingRun.placed (h : SparingRun ls s) : Placed s := by
  induction h with
  | nil => exact placed_initial
  | snoc l hrun hl hs ih =>
      refine ih.step (SparingRun.reachable hrun) ?_ hl.1 hl.2 hs
      exact fun t tk => SparingRun.threadless hrun

/-- A thread in `rd_kafka_destroy` writes, and no poll thread is left. -/
theorem Machine.Reachable.destroying (h : s.Reachable) {t rk : Nat}
    (ht : s.next t = some (.rdKafkaDestroy rk)) : s.lock.held t = .wr ∧ s.sh.Threadless := by
  obtain ⟨c, k, hthr⟩ := Cfg.next_eq_some.mp ht
  obtain ⟨hwr, hrk, -, hno⟩ := h.good.valid hthr
  exact ⟨hwr, h.inv.no_thread hrk hno⟩

/-- Only callbacks touch a throttle. -/
theorem SparingRun.runsOn (h : SparingRun ls s) {u : Thread} {p : Nat} (hu : Inside s u p) :
    s.fr.RunsOn u := by
  rcases hu with ⟨q, hq, -, hstage⟩ | ⟨t, -, ht⟩
  · exact ⟨q, hq, hstage⟩
  · exact absurd ht (h.unflushed t p)

/-- A poll thread with a callback was not joined. -/
theorem SparingRun.live (h : SparingRun ls s) {thr : Nat} (hu : s.fr.RunsOn (.poll thr)) :
    s.sh.threads.Live thr := by
  refine h.reachable.inv.alive thr ?_
  rw [h.placed.polls thr hu]
  exact PollPhase.noConfusion

/-- A session with a callback writes, after the poll thread was joined. -/
theorem SparingRun.joined (h : SparingRun ls s) {t : Nat} (hu : s.fr.RunsOn (.session t)) :
    s.lock.held t = .wr ∧ s.sh.Threadless := by
  obtain ⟨rk, hnext⟩ := h.placed.sessions t hu
  exact h.reachable.destroying hnext

/-- One thread runs callbacks. -/
theorem SparingRun.alone (h : SparingRun ls s) {u v : Thread} (hu : s.fr.RunsOn u)
    (hv : s.fr.RunsOn v) : u = v := by
  cases u with
  | session t =>
      obtain ⟨hwr, hnone⟩ := h.joined hu
      cases v with
      | session t' =>
          by_contra hne
          have htt : t' ≠ t := fun e => hne (congrArg Thread.session e.symm)
          have hfree := Lock.held_of_wr hwr htt
          rw [(h.joined hv).1] at hfree
          cases hfree
      | poll thr => exact absurd (h.live hv) (hnone thr)
  | poll thr =>
      cases v with
      | session t => exact absurd (h.live hu) ((h.joined hv).2 thr)
      | poll thr' => exact congrArg Thread.poll (h.placed.one thr thr' (h.live hu) (h.live hv))

/-- **Confinement**, where the throttles are spared. -/
theorem confined_of_spares (h : SparingRun ls s) : Confined s where
  alone p u v hu hv := h.alone (h.runsOn hu) (h.runsOn hv)
  joined p u hu := by
    cases u with
    | session t => exact Or.inr (h.joined (h.runsOn hu)).2
    | poll thr => exact Or.inl ⟨thr, rfl⟩

/-- Session 0 sends two messages to a topic, and the poll thread enters `rd_kafka_poll`. -/
def twoSent : List (Label Ans Ev TableCall) :=
  calling 0 (.connect (some (.lit "b"))) 20 ++ calling 0 (.create (some (.lit "t"))) 15 ++
    calling 0 (.send (some (.lit "t")) [1]) 11 ++ calling 0 (.send (some (.lit "t")) [2]) 11 ++
    [.env (.pollCheck 0)]

/-- A message at a stage. -/
theorem inside_of_mem {s : Machine} {p : Nat} {g : Stage} {u : Thread}
    (h : (p, g) ∈ s.fr.inflight.map fun q => (q.msg.tt, q.stage)) (hg : g.thread = some u) :
    Inside s u p := by
  obtain ⟨q, hq, e⟩ := List.mem_map.mp h
  obtain ⟨htt, rfl⟩ := Prod.mk.inj e
  exact Or.inl ⟨q, hq, htt, hg⟩

/-- The first message is reported on the poll thread. -/
theorem twoSent_confined : ∃ ls s, SparingRun ls s ∧ Inside s (.poll 0) 0 ∧ Confined s := by
  have hrun : (Cfg.runIf iface tableProg (fun s l => properStep s l && sparingStep s l)
      (twoSent ++ [.env (.cbEnter 0 (.poll 0) noError)]) Machine.initial).map
        (fun s => s.fr.inflight.map fun q => (q.msg.tt, q.stage)) =
          some [(0, .running (.poll 0) noError), (0, .queued)] := by
    decide +kernel
  obtain ⟨s, hs, he⟩ := Option.map_eq_some_iff.mp hrun
  have hby : SparingRun _ s := Cfg.runBy_of_runIf (fun s l h => ?_) hs
  · refine ⟨_, s, hby, ?_, confined_of_spares hby⟩
    exact inside_of_mem (g := .running (.poll 0) noError) (by rw [he]; exact List.mem_cons_self) rfl
  · obtain ⟨hp, hsp⟩ := Bool.and_eq_true_iff.mp h
    exact ⟨proper_of_properStep hp, spares_of_sparingStep hsp⟩

/-- Meanwhile session 1 flushes in `kafka_topic_get_stats`, and the second message is reported
there. -/
def twoCallbacks : List (Label Ans Ev TableCall) :=
  twoSent ++ .start 1 (.getStats (some (.lit "t"))) :: List.replicate 7 (.step 1 .ok) ++
    [.env (.cbEnter 0 (.poll 0) noError), .env (.cbEnter 1 (.session 1) noError)]

/-- Two threads are inside the callback about one record. -/
theorem twoCallbacks_race : ∃ s, Cfg.RunBy iface tableProg Proper Machine.initial twoCallbacks s ∧
    Inside s (.poll 0) 0 ∧ Inside s (.session 1) 0 ∧ ¬ Confined s := by
  have hrun : (Cfg.runIf iface tableProg properStep twoCallbacks Machine.initial).map
      (fun s => s.fr.inflight.map fun q => (q.msg.tt, q.stage)) =
        some [(0, .running (.poll 0) noError), (0, .running (.session 1) noError)] := by
    decide +kernel
  obtain ⟨s, hs, he⟩ := Option.map_eq_some_iff.mp hrun
  have hpoll : Inside s (.poll 0) 0 :=
    inside_of_mem (g := .running (.poll 0) noError) (by rw [he]; exact List.mem_cons_self) rfl
  have hsession : Inside s (.session 1) 0 :=
    inside_of_mem (g := .running (.session 1) noError)
      (by rw [he]; exact List.mem_cons_of_mem _ List.mem_cons_self) rfl
  refine ⟨s, Cfg.runBy_of_runIf (fun _ _ => proper_of_properStep) hs, hpoll, hsession, fun h => ?_⟩
  cases h.alone 0 _ _ hpoll hsession

end TrigEmit
