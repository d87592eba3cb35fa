import TrigEmitKafka.Rules.Confinement

/-!
# Rules — stopping the poll thread

`producer_thread` runs until it reads that `running` was cleared.  A thread under the lock starts it
where there is none, after it set that, and waits for it after it cleared that (`tellsFirst`).

* `tableProg_tellsFirst`: so does every call to the table.
* `Attentive`: there is one poll thread at most, and it has not exited while its producer runs.
-/

namespace TrigEmit

open Conc (Duty LProg Prog)
open Store (Heap)

/-- The poll thread was told to stop. -/
def Tab.Told (T : Tab) (thr : Nat) : Prop :=
  ∀ tk v, T.threads.get thr = some tk → T.producers.get tk = some v → v.running = false

/-- No poll thread reads the producer. -/
def Tab.Unpolled (T : Tab) (tk : Nat) : Prop := ∀ thr, T.threads.get thr ≠ some tk

/-- The producer runs. -/
def Tab.Running (T : Tab) (tk : Nat) : Prop :=
  ∃ v, T.producers.get tk = some v ∧ v.running = true

/-- The producer names the poll thread it started. -/
def Tab.Started (T : Tab) (tk : Nat) : Prop :=
  ∀ v, T.producers.get tk = some v → v.threadStarted = true → T.threads.get v.thread = some tk

/-- A thread that is joined was told to stop, one is started where there is none, and a producer
that is set running runs already or has no thread yet. -/
def tellsFirst : Duty Tab Op where
  needs
    | .pthreadJoin thr, T => T.Told thr
    | .pthreadCreate _, T => T.Threadless
    | .storeTk tk v,    T => v.running = true → T.Running tk ∨ T.Unpolled tk
    | _,                _ => True
  stops _ := False

/-- The call neither starts nor joins a thread, and sets no producer running. -/
def Op.Unpolling : Op → Prop
  | .pthreadCreate _ | .pthreadJoin _ => False
  | .storeTk _ v                      => v.running = false
  | _                                 => True

theorem Op.Calm.unpolling {o : Op} (ho : o.Calm) : o.Unpolling := by
  cases o <;> first | exact ho.elim | trivial

theorem tellsFirst_unpolling (o : Op) (T : Tab) (ho : o.Unpolling) : tellsFirst.needs o T := by
  cases o with
  | storeTk tk v =>
      intro hv
      rw [show v.running = false from ho] at hv
      cases hv
  | pthreadCreate tk => exact ho.elim
  | pthreadJoin thr => exact ho.elim
  | _ => trivial

theorem tellsFirst_leaves (o : Op) (T : Tab) (ho : o.Leaves) : tellsFirst.needs o T := by
  cases o <;> first | exact ho.elim | trivial

/-- Where there is no poll thread, every call may be made. -/
theorem tellsFirst_threadless (o : Op) {T : Tab} (hT : T.Threadless) : tellsFirst.needs o T := by
  have hno : ∀ thr tk, T.threads.get thr ≠ some tk := fun thr tk h =>
    hT thr (Heap.live_of_get h)
  cases o with
  | storeTk tk v => exact fun _ => Or.inr fun thr => hno thr tk
  | pthreadCreate tk => exact hT
  | pthreadJoin thr => exact fun tk v h => absurd h (hno thr tk)
  | _ => trivial

/-- The call leaves the producers and the poll threads as they are. -/
def Op.Aside : Op → Prop
  | .mallocTk | .storeTk _ _ | .freeTk _ | .pthreadCreate _ | .pthreadJoin _ => False
  | _ => True

theorem Op.Aside.act {o : Op} {t : Nat} {a : Ans} {T T' : Tab} {d d' : Flow} {r : o.Res}
    (ho : o.Aside) (h : o.act t a T d = some (r, T', d')) :
    T'.producers = T.producers ∧ T'.threads = T.threads := by
  cases o <;> first | exact ho.elim | skip
  all_goals cases a <;> simp only [Op.act] at h <;> first
    | (cases h; done)
    | (cases h; exact ⟨rfl, rfl⟩)
    | (obtain ⟨_, _, e⟩ := Option.map_eq_some_iff.mp h; cases e; exact ⟨rfl, rfl⟩)
    | (split at h <;> cases h; exact ⟨rfl, rfl⟩)

theorem Op.Aside.unpolling {o : Op} (ho : o.Aside) : o.Unpolling := by
  cases o <;> first | exact ho.elim | trivial

/-! ### Under the lock -/

section meets

variable {J : Tab → Prop} {T : Tab} {α : Type}

/-- A program that starts no thread, where there is none. -/
theorem MadeOf.tells {p : K α} (h : Inner p) (hT : T.Threadless) :
    tellsFirst.Meets iface J p (some T) fun _ m => ∃ T', m = some T' ∧ T'.Threadless := by
  refine Duty.Meets.of_inner (fun c hc => ?_) (fun o T _ hT => tellsFirst_threadless o hT)
    (fun ho ha hT => ?_) h hT
  · obtain ⟨o, rfl, -⟩ := hc
    exact ⟨o, rfl⟩
  · obtain ⟨o', e, ho'⟩ := ho
    cases e
    exact ho'.threadless ha hT

/-- A program that leaves the poll thread alone. -/
theorem meets_unpolling {p : K α} (h : p.Straight Op.Unpolling) (m : Option Tab) :
    tellsFirst.Meets iface J p m fun _ _ => True :=
  .of_straight tellsFirst_unpolling h m

/-- A call that leaves the producers and the threads as they are. -/
theorem meets_aside {o : Op} (ho : o.Aside) :
    tellsFirst.Meets iface J (call o) (some T) fun _ m =>
      ∃ T', m = some T' ∧ T'.producers = T.producers ∧ T'.threads = T.threads :=
  .op (tellsFirst_unpolling o T ho.unpolling) fun _ _ _ _ T' _ ha => ⟨T', rfl, ho.act ha⟩

theorem meets_storeTk {tk : Nat} {v : TekKafka} (hn : tellsFirst.needs (.storeTk tk v) T) :
    tellsFirst.Meets iface J (call (.storeTk tk v)) (some T) fun _ m =>
      m = some { T with producers := T.producers.set tk v } := by
  refine .op hn fun t a d r T' d' ha => ?_
  cases ha
  rfl

/-- A topic is disposed of without a look at the producer. -/
theorem topicDispose_tells (tt : Nat) :
    tellsFirst.Meets iface J (tekKafkaTopicDispose tt) (some T) fun _ m =>
      ∃ T', m = some T' ∧ T'.producers = T.producers ∧ T'.threads = T.threads := by
  refine (meets_loadTopic (D := tellsFirst) trivial).seq ?_
  rintro v _ ⟨-, rfl⟩
  cases v.rkt with
  | none => exact meets_aside trivial
  | some h =>
      refine (meets_aside (o := .rdKafkaTopicDestroy h) trivial).seq ?_
      rintro _ _ ⟨T₁, rfl, hp₁, ht₁⟩
      refine (meets_aside (o := .storeTopic tt _) trivial).seq ?_
      rintro _ _ ⟨T₂, rfl, hp₂, ht₂⟩
      refine (meets_aside (o := .flushSuppressed tt) trivial).mono ?_
      rintro _ _ ⟨T₃, rfl, hp₃, ht₃⟩
      exact ⟨T₃, rfl, hp₃.trans (hp₂.trans hp₁), ht₃.trans (ht₂.trans ht₁)⟩

theorem topicsDispose_tells (tts : List Nat) :
    tellsFirst.Meets iface J (Prog.forEach tekKafkaTopicDispose tts) (some T) fun _ m =>
      ∃ T', m = some T' ∧ T'.producers = T.producers ∧ T'.threads = T.threads := by
  induction tts generalizing T with
  | nil => exact .pure ⟨T, rfl, rfl, rfl⟩
  | cons tt tts ih =>
      refine (topicDispose_tells tt).seq ?_
      rintro _ _ ⟨T₁, rfl, hp₁, ht₁⟩
      refine ih.mono ?_
      rintro _ _ ⟨T₂, rfl, hp₂, ht₂⟩
      exact ⟨T₂, rfl, hp₂.trans hp₁, ht₂.trans ht₁⟩

/-- What `tek_kafka_producer_dispose` does after the thread was joined. -/
theorem disposeRest_straight (tk : Nat) (v : TekKafka) :
    (do
      destroyInstance tk v
      destroyConf v.conf
      safeFreeStr v.brokers
      call (.freeTk tk) : K Unit).Straight Op.Unpolling := by
  have hdestroy : (destroyInstance tk v).Straight Op.Unpolling := by
    unfold destroyInstance
    split
    · exact .pure
    · exact .op trivial fun _ => .op trivial fun _ => .call rfl
  have hconf : (destroyConf v.conf).Straight Op.Unpolling := by
    cases v.conf with
    | none => exact .pure
    | some conf => exact .call trivial
  have hstr : (safeFreeStr v.brokers).Straight Op.Unpolling :=
    (safeFreeStr_straight _).mono fun _ ho => ho.calm.unpolling
  exact hdestroy.bind fun _ => hconf.bind fun _ => hstr.bind fun _ => .call trivial

/-- **The poll thread is told before it is joined.** -/
theorem dispose_tells {tk : Option Nat} (hT : ∀ p, tk = some p → T.Started p) :
    tellsFirst.Meets iface J (tekKafkaProducerDispose tk) (some T) fun _ _ => True := by
  cases tk with
  | none => exact .pure trivial
  | some tk =>
      refine (meets_loadTk (D := tellsFirst) trivial).seq ?_
      rintro v _ ⟨hv, rfl⟩
      have hclear : tellsFirst.needs (.storeTk tk { v with running := false }) T :=
        fun e => by cases e
      refine (meets_storeTk hclear).seq ?_
      rintro _ _ rfl
      by_cases hs : v.threadStarted = true
      · rw [joinPollThread, if_pos hs]
        have htold : Tab.Told { T with
            producers := T.producers.set tk { v with running := false } } v.thread := by
          intro p w hp hw
          obtain rfl : tk = p := Option.some.inj ((hT tk rfl v hv hs).symm.trans hp)
          obtain rfl := Option.some.inj ((Heap.get_set_self hv).symm.trans hw)
          rfl
        refine Duty.Meets.seq (P := fun _ _ => True) (Duty.Meets.seq (P := fun _ _ => True)
          (.op (o := Op.pthreadJoin v.thread) htold fun _ _ _ _ _ _ _ => trivial)
          fun _ m _ => ?_) fun _ m _ => meets_unpolling (disposeRest_straight tk v) m
        refine meets_unpolling ?_ m
        exact LProg.Straight.call rfl
      · rw [joinPollThread, if_neg hs]
        exact meets_unpolling (disposeRest_straight tk v) _

/-- A thread is started once, for the producer just set running. -/
theorem run_tells {tk : Nat} (hT : T.Threadless) :
    tellsFirst.Meets iface J (tekKafkaProducerRun tk) (some T) fun r m =>
      r = .ok () ∨ ∃ T', m = some T' ∧ T'.Threadless := by
  have hfail : ∀ {p : K (Except String Unit)} {T₁ : Tab}, Inner p → T₁.Threadless →
      tellsFirst.Meets iface J p (some T₁) fun r m =>
        r = .ok () ∨ ∃ T', m = some T' ∧ T'.Threadless :=
    fun hp hT₁ => (hp.tells hT₁).mono fun _ _ => Or.inr
  refine (meets_loadTk (D := tellsFirst) trivial).seq ?_
  rintro v _ ⟨hv, rfl⟩
  cases v.conf with
  | none => exact hfail .pure hT
  | some conf =>
      refine (meets_aside (o := .rdKafkaConfSetDrMsgCb conf) trivial).seq ?_
      rintro _ _ ⟨T₁, rfl, hp₁, ht₁⟩
      refine (meets_aside (o := .rdKafkaNew conf) trivial).seq ?_
      rintro r _ ⟨T₂, rfl, hp₂, ht₂⟩
      have hthreads : T₂.threads = T.threads := ht₂.trans ht₁
      have hT₂ : T₂.Threadless := fun thr hl => hT thr (hthreads ▸ hl)
      have hv₂ : T₂.producers.get tk = some v := by
        rw [hp₂, hp₁]
        exact hv
      cases r with
      | error text =>
          refine hfail ?_ hT₂
          exact .op trivial fun _ => .op trivial fun _ => .pure
      | ok rk =>
          refine (meets_storeTk (tellsFirst_threadless _ hT₂)).seq ?_
          rintro _ _ rfl
          set w : TekKafka := { v with rk := some rk, conf := none, running := true } with hw
          refine Duty.Meets.seq (P := fun thr m => ∃ T', m = some T' ∧
            T'.producers = T₂.producers.set tk w ∧ (thr = none → T'.Threadless))
            (.op (o := Op.pthreadCreate tk) hT₂ fun t a d r T' d' ha => ?_) ?_
          · cases a with
            | ok =>
                cases ha
                exact ⟨_, rfl, rfl, fun e => by cases e⟩
            | fail err text =>
                cases ha
                exact ⟨_, rfl, rfl, fun _ => hT₂⟩
            | queueFull => cases ha
          rintro thr _ ⟨T₃, rfl, hp₃, hT₃⟩
          cases thr with
          | none => exact hfail (.op trivial fun _ => .pure) (hT₃ rfl)
          | some thr =>
              refine (meets_storeTk ?_).seq fun _ m _ => .pure (Or.inl rfl)
              refine fun _ => Or.inl ⟨w, ?_, rfl⟩
              rw [hp₃]
              exact Heap.get_set_self hv₂

theorem connectLocked_tells {brokers : CStr} (hT : TableInv T) :
    tellsFirst.Meets iface J (kafkaTableConnectLocked brokers) (some T) fun _ _ => True := by
  refine (meets_loadKt (D := tellsFirst) trivial).seq ?_
  rintro _ _ ⟨rfl, rfl⟩
  split
  · exact .pure trivial
  · rename_i hp
    refine ((create_inner brokers).tells (hT.threadless hp)).seq ?_
    rintro r _ ⟨T₁, rfl, hT₁⟩
    cases r with
    | none => exact .pure trivial
    | some tk =>
        have hdispose : ∀ {T₂ : Tab} {text : String}, T₂.Threadless →
            tellsFirst.Meets iface J (do
              tekKafkaProducerDispose (some tk)
              pure (.error text : Except String Unit)) (some T₂) fun _ _ => True :=
          fun hT₂ => (((dispose_inner _).bind fun _ => .pure).tells hT₂).mono fun _ _ _ => trivial
        refine ((applyParams_inner tk _).tells hT₁).seq ?_
        rintro r _ ⟨T₂, rfl, hT₂⟩
        cases r with
        | error text => exact hdispose hT₂
        | ok u =>
            refine (run_tells hT₂).seq ?_
            rintro r m (rfl | ⟨T₃, rfl, hT₃⟩)
            · refine meets_unpolling ?_ m
              exact LProg.Straight.op trivial fun _ => .pure
            · cases r with
              | error text => exact hdispose hT₃
              | ok u =>
                  refine meets_unpolling ?_ _
                  exact LProg.Straight.op trivial fun _ => .pure

/-- The current producer names its poll thread. -/
theorem TableInv.started (hT : TableInv T) {tk : Nat} (hk : T.kt.producer = some tk) :
    T.Started tk := by
  obtain ⟨W, -, h⟩ := hT
  intro v hv hs
  rw [h.kt] at hk
  obtain ⟨c, hc, rfl⟩ := Option.map_eq_some_iff.mp hk
  obtain rfl := Option.some.inj ((h.producers.get (World.producer_mem hc)).symm.trans hv)
  exact h.threads.get (by simp [World.cells, hc, Conn.producer])

theorem dismissAllLocked_tells (hT : TableInv T) :
    tellsFirst.Meets iface J kafkaTableDismissAllLocked (some T) fun _ _ => True := by
  refine (meets_loadKt (D := tellsFirst) trivial).seq ?_
  rintro _ _ ⟨rfl, rfl⟩
  refine (meets_flush tellsFirst_leaves fun _ _ => trivial).seq ?_
  rintro _ _ rfl
  refine (topicsDispose_tells T.kt.topics.items).seq ?_
  rintro _ _ ⟨T₁, rfl, hp₁, ht₁⟩
  have hstarted : ∀ p, T.kt.producer = some p → T₁.Started p := by
    intro p hp v hv hs
    rw [ht₁]
    exact hT.started hp v (hp₁ ▸ hv) hs
  refine (dispose_tells hstarted).seq fun _ m _ => meets_unpolling ?_ m
  have hfree : ∀ tts, LProg.Straight Op.Unpolling (Prog.forEach tekKafkaTopicFree tts) := fun tts =>
    (LProg.Straight.mono (P := Op.Tame) (fun _ ho => ho.calm.unpolling)
      (Prog.Straight.forEach topicFree_straight tts))
  have harray : ∀ p, (safeFreeArray p).Straight Op.Unpolling := by
    intro p
    cases p with
    | none => exact .pure
    | some p => exact .call trivial
  refine .op trivial fun _ => (hfree _).bind fun _ => (harray _).bind fun _ => ?_
  refine .op trivial fun _ => (hfree _).bind fun _ => (harray _).bind fun _ => .call trivial

end meets

/-- **Every call** tells the poll thread to stop before it joins it. -/
theorem tableProg_tellsFirst (c : TableCall) :
    tellsFirst.Meets iface TableInv (tableProg c) none fun _ _ => True := by
  have htame : ∀ {α : Type} {p : K α}, p.Straight Op.Tame →
      tellsFirst.Meets iface TableInv p none fun _ _ => True := fun hp =>
    meets_unpolling (hp.mono fun _ ho => ho.calm.unpolling) none
  cases c with
  | connected => exact htame connected_tame
  | validateParam name value => exact htame (validateParam_tame name value)
  | setParam name value => exact htame (setParam_tame name value)
  | getBrokers buflen => exact htame (getBrokers_tame buflen)
  | describeParams buflen => exact htame (kafkaTableDescribeParams_tame buflen)
  | «exists» topic => exact htame (exists_tame topic)
  | create topicName => exact htame (create_tame topicName)
  | unsetParam name => exact htame (unsetParam_tame name)
  | getStats topic => exact htame (getStats_tame topic)
  | dismiss topic =>
      exact meets_unpolling ((dismiss_calm topic).mono fun _ ho => ho.unpolling) none
  | send topic data =>
      exact meets_send tellsFirst_leaves topic data fun _ _ _ _ => ⟨trivial, fun _ _ _ _ => trivial⟩
  | connect brokers =>
      cases brokers with
      | none => exact .pure trivial
      | some b =>
          simp only [tableProg, kafkaTableConnect]
          split
          · exact .pure trivial
          · exact .writing fun T hT => (connectLocked_tells hT).mono fun _ _ _ => .pure trivial
  | dismissAll =>
      exact .writing fun T hT => (dismissAllLocked_tells hT).mono fun _ _ _ => .pure trivial

/-! ### The poll thread of a running producer -/

/-- While a message is in flight, there is an instance. -/
def Backed (T : Tab) (d : Flow) : Prop := d.inflight ≠ [] → ∃ rk, T.rks.Live rk

theorem Backed.act {t : Nat} {o : Op} {a : Ans} {T T' : Tab} {d d' : Flow} {r : o.Res}
    {m : Conc.Held} (h : Backed T d) (hv : o.Valid t m T d)
    (ha : o.act t a T d = some (r, T', d')) : Backed T' d' := by
  intro hi
  cases o with
  | rdKafkaNew p =>
      cases a with
      | queueFull => cases ha
      | ok =>
          obtain ⟨_, _, e⟩ := Option.map_eq_some_iff.mp ha
          cases e
          exact ⟨_, Heap.live_of_get (Heap.get_alloc_next _ _)⟩
      | fail err text =>
          obtain ⟨_, _, e⟩ := Option.map_eq_some_iff.mp ha
          cases e
          exact h hi
  | rdKafkaDestroy p =>
      simp only [Op.act] at ha
      split at ha
      · rename_i hnil
        cases ha
        exact absurd hnil hi
      · cases ha
  | rdKafkaProduce rkt payload key tt =>
      obtain ⟨-, -, v, -, hrk⟩ := hv
      rw [Op.Leaves.act (o := .rdKafkaProduce rkt payload key tt) trivial ha]
      exact ⟨v.rk, hrk⟩
  | _ =>
      cases a <;> simp only [Op.act] at ha <;> first
        | (cases ha; done)
        | (cases ha; exact h hi)
        | (obtain ⟨_, _, e⟩ := Option.map_eq_some_iff.mp ha; cases e; exact h hi)
        | (split at ha <;> cases ha; exact h hi)

theorem Backed.env {e : Ev} {T : Tab} {d d' : Flow} (h : Backed T d)
    (he : e.act T d = some d') : Backed T d' := by
  intro hi
  refine h fun hnil => hi ?_
  rcases Ev.act_cases he with ⟨m, u, err, rest, hp, -⟩ | ⟨m, u, err, now, rest, hp, -⟩ |
    ⟨m, u, hp, -⟩ | ⟨thr, ph, -, rfl⟩
  · exact absurd (hnil ▸ hp).nil_eq (by simp)
  · exact absurd (hnil ▸ hp).nil_eq (by simp)
  · exact absurd (hnil ▸ hp).nil_eq (by simp)
  · exact hnil

/-- There is one poll thread at most, it has not exited while its producer runs, and messages are
in flight only while there is an instance. -/
structure Attentive (T : Tab) (d : Flow) : Prop where
  one : ∀ thr thr', T.threads.Live thr → T.threads.Live thr' → thr = thr'
  running : ∀ thr tk v, T.threads.get thr = some tk → T.producers.get tk = some v →
    v.running = true → d.phase thr ≠ .exited
  held : Backed T d

theorem attentive_init : Attentive Tab.init Flow.init where
  one thr thr' h := by simp [Tab.init, Heap.Live] at h
  running thr tk v h := by simp [Tab.init] at h
  held h := absurd rfl h

/-- **A call** keeps it that way. -/
theorem Attentive.act {t : Nat} {o : Op} {a : Ans} {T T' : Tab} {d d' : Flow} {r : o.Res}
    {m : Conc.Held} (h : Attentive T d) (hv : o.Valid t m T d) (hn : tellsFirst.needs o T)
    (ha : o.act t a T d = some (r, T', d')) : Attentive T' d' where
  one thr thr' hl hl' := by
    rcases Op.act_threads ha with hsub | ⟨tk, rfl, hT⟩
    · exact h.one thr thr' (hsub thr hl) (hsub thr' hl')
    · -- there was no thread, so the new one is alone
      have hnew : ∀ u, T'.threads.Live u → u = T.threads.next := by
        intro u hu
        by_contra hne
        rw [hT, Heap.Live, Heap.get_alloc_ne hne] at hu
        exact hn u hu
      exact (hnew thr hl).trans (hnew thr' hl').symm
  running thr tk v hthr hv' hrun := by
    have haside : o.Aside → d'.phase thr ≠ .exited := by
      intro ho
      obtain ⟨hp, ht⟩ := ho.act ha
      rw [ht] at hthr
      rw [hp] at hv'
      rw [Op.act_phase ha (Heap.live_of_get hthr)]
      exact h.running thr tk v hthr hv' hrun
    cases o with
    | mallocTk =>
        cases a with
        | queueFull => cases ha
        | fail err text => cases ha; exact h.running thr tk v hthr hv' hrun
        | ok =>
            cases ha
            by_cases e : tk = T.producers.next
            · subst e
              obtain rfl := Option.some.inj ((Heap.get_alloc_next _ _).symm.trans hv')
              cases hrun
            · rw [Heap.get_alloc_ne e] at hv'
              exact h.running thr tk v hthr hv' hrun
    | storeTk p w =>
        cases ha
        by_cases e : tk = p
        · subst e
          obtain ⟨u, hu⟩ := Option.isSome_iff_exists.mp hv.2
          obtain rfl := Option.some.inj ((Heap.get_set_self hu).symm.trans hv')
          rcases hn hrun with ⟨x, hx, hrun'⟩ | hno
          · exact h.running thr tk x hthr hx hrun'
          · exact absurd hthr (hno thr)
        · rw [Heap.get_set_ne e] at hv'
          exact h.running thr tk v hthr hv' hrun
    | freeTk p =>
        cases ha
        exact h.running thr tk v hthr (Heap.get_free hv') hrun
    | pthreadCreate p =>
        cases a with
        | queueFull => cases ha
        | fail err text => cases ha; exact h.running thr tk v hthr hv' hrun
        | ok =>
            cases ha
            by_cases e : thr = T.threads.next
            · subst e
              rw [show (_ : Flow).phase _ = _ from Function.update_self ..]
              exact PollPhase.noConfusion
            · rw [Heap.get_alloc_ne e] at hthr
              rw [show (_ : Flow).phase _ = _ from Function.update_of_ne e ..]
              exact h.running thr tk v hthr hv' hrun
    | pthreadJoin p =>
        simp only [Op.act] at ha
        split at ha <;> cases ha
        exact h.running thr tk v (Heap.get_free hthr) hv' hrun
    | _ => exact haside trivial
  held := h.held.act hv ha

/-- So does a step of librdkafka or of the poll thread. -/
theorem Attentive.env {e : Ev} {T : Tab} {d d' : Flow} (h : Attentive T d)
    (he : e.act T d = some d') : Attentive T d' where
  one := h.one
  held := h.held.env he
  running u tk w hu hw hrun := by
    have hph := h.running u tk w hu hw hrun
    cases e with
    | pollCheck thr =>
        simp only [Ev.act] at he
        split at he
        · rename_i v _ hv
          cases he
          by_cases e : u = thr
          · subst e
            -- what the thread read is the record
            rw [hu, Option.bind_some, hw] at hv
            cases hv
            simp [hrun]
          · rw [show (_ : Flow).phase _ = _ from Function.update_of_ne e ..]
            exact hph
        · cases he
    | pollReturn thr =>
        simp only [Ev.act] at he
        split at he <;> cases he
        by_cases e : u = thr
        · subst e
          simp
        · rw [show (_ : Flow).phase _ = _ from Function.update_of_ne e ..]
          exact hph
    | _ =>
        simp only [Ev.act] at he
        split at he <;> cases he
        exact hph

end TrigEmit
