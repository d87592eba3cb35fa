import TrigEmitKafka.Rules.Duties
import TrigEmitKafka.Rules.Quick

/-!
# Rules — starting a poll thread, and flushing a throttle

A thread under the lock starts a poll thread only where there is none, and flushes the throttle of
a record only after it destroyed the record's handle (`keepsOff`).

* `tableProg_keepsOff`: so does every call to the table.
-/

namespace TrigEmit

open Conc (Duty LProg Prog)
open Store (Heap)

/-! ### Threads -/

/-- A call starts no thread, other than `pthread_create`, which starts one. -/
theorem Op.act_threads {t : Nat} {o : Op} {a : Ans} {T T' : Tab} {d d' : Flow} {r : o.Res}
    (h : o.act t a T d = some (r, T', d')) :
    (∀ thr, T'.threads.Live thr → T.threads.Live thr) ∨
      ∃ tk, o = .pthreadCreate tk ∧ T'.threads = T.threads.alloc tk := by
  cases o <;> cases a <;> simp only [Op.act] at h <;> first
    | (cases h; done)
    | (cases h; first
        | exact Or.inl fun _ => id
        | exact Or.inr ⟨_, rfl, rfl⟩)
    | (obtain ⟨_, _, e⟩ := Option.map_eq_some_iff.mp h; cases e; exact Or.inl fun _ => id)
    | (split at h <;> cases h
       first
        | exact Or.inl fun _ => id
        | (refine Or.inl fun thr hl => ?_
           obtain ⟨tk, htk⟩ := Option.isSome_iff_exists.mp hl
           exact Heap.live_of_get (Heap.get_free htk)))

/-- A call moves no poll thread that is live. -/
theorem Op.act_phase {t : Nat} {o : Op} {a : Ans} {T T' : Tab} {d d' : Flow} {r : o.Res}
    (h : o.act t a T d = some (r, T', d')) {thr : Nat} (hl : T.threads.Live thr) :
    d'.phase thr = d.phase thr := by
  obtain ⟨tk, htk⟩ := Option.isSome_iff_exists.mp hl
  cases o <;> cases a <;> simp only [Op.act] at h <;> first
    | (cases h; done)
    | (cases h; first | rfl | exact Function.update_of_ne (Heap.ne_next htk) _ _)
    | (obtain ⟨_, _, e⟩ := Option.map_eq_some_iff.mp h; cases e; rfl)
    | (split at h <;> cases h; rfl)

/-- No poll thread is left. -/
def Tab.Threadless (T : Tab) : Prop := ∀ thr, ¬ T.threads.Live thr

/-- A thread that starts a poll thread is to have none, and no throttle is to be flushed, where no
handle of a topic is destroyed. -/
def keepsOff : Duty Tab Op where
  needs
    | .pthreadCreate _,   T => T.Threadless
    | .flushSuppressed _, _ => False
    | _,                  _ => True
  stops o := ∃ h, o = .rdKafkaTopicDestroy h

/-- The call neither starts a thread nor flushes a throttle. -/
def Op.Still : Op → Prop
  | .pthreadCreate _ | .flushSuppressed _ => False
  | _                                     => True

theorem Op.Mild.still {o : Op} (ho : o.Mild) : o.Still := by
  cases o <;> first | exact ho.elim | trivial

theorem keepsOff_still (o : Op) (T : Tab) (ho : o.Still) : keepsOff.needs o T := by
  cases o <;> first | exact ho.elim | trivial

theorem keepsOff_leaves (o : Op) (T : Tab) (ho : o.Leaves) : keepsOff.needs o T := by
  cases o <;> first | exact ho.elim | trivial

theorem Op.Still.threadless {o : Op} (ho : o.Still) {t : Nat} {a : Ans} {T T' : Tab} {d d' : Flow}
    {r : o.Res} (h : o.act t a T d = some (r, T', d')) (hT : T.Threadless) : T'.Threadless := by
  rcases Op.act_threads h with hsub | ⟨tk, rfl, -⟩
  · exact fun thr hl => hT thr (hsub thr hl)
  · exact ho.elim

/-! ### Programs that need nothing -/

/-- The program runs under the lock, and its calls are of the kind `A`. -/
def MadeOf (A : Op → Prop) {α : Type} (p : K α) : Prop :=
  Prog.Straight (fun c => ∃ o, c = .op o ∧ A o) p

namespace MadeOf

variable {A B : Op → Prop} {α γ : Type}

theorem pure {a : α} : MadeOf A (Pure.pure a : K α) := trivial

theorem call {o : Op} (ho : A o) : MadeOf A (call o) := ⟨⟨o, rfl, ho⟩, fun _ => trivial⟩

theorem op {o : Op} {k : o.Res → K α} (ho : A o) (hk : ∀ r, MadeOf A (k r)) :
    MadeOf A (TrigEmit.call o >>= k) :=
  ⟨⟨o, rfl, ho⟩, hk⟩

theorem bind {p : K α} {f : α → K γ} (hp : MadeOf A p) (hf : ∀ a, MadeOf A (f a)) : MadeOf A (p >>= f) :=
  Prog.Straight.bind hp hf

theorem mono (h : ∀ o, A o → B o) {p : K α} (hp : MadeOf A p) : MadeOf B p := by
  refine Prog.Straight.mono (fun c hc => ?_) hp
  obtain ⟨o, e, ho⟩ := hc
  exact ⟨o, e, h o ho⟩

theorem straight {p : K α} (h : MadeOf A p) : p.Straight A := by
  refine Prog.Straight.mono (fun c hc => ?_) h
  obtain ⟨o, rfl, ho⟩ := hc
  exact ho

end MadeOf

/-- The program, which runs under the lock, neither starts a thread nor flushes a throttle. -/
abbrev Inner {α : Type} (p : K α) : Prop := MadeOf Op.Still p

namespace MadeOf

variable {α : Type}

/-- It keeps no poll thread where there is none. -/
theorem meets {p : K α} (h : Inner p) {J : Tab → Prop} {T : Tab} (hT : T.Threadless) :
    keepsOff.Meets iface J p (some T) fun _ m => ∃ T', m = some T' ∧ T'.Threadless := by
  refine Duty.Meets.of_inner (fun c hc => ?_) (fun o T ho _ => ?_) (fun ho ha hT => ?_) h hT
  · obtain ⟨o, rfl, -⟩ := hc
    exact ⟨o, rfl⟩
  · obtain ⟨o', e, ho'⟩ := ho
    cases e
    exact keepsOff_still o T ho'
  · obtain ⟨o', e, ho'⟩ := ho
    cases e
    exact ho'.threadless ha hT

/-- It meets the duty in any state. -/
theorem meets_any {p : K α} (h : Inner p) {J : Tab → Prop} (m : Option Tab) :
    keepsOff.Meets iface J p m fun _ _ => True :=
  Duty.Meets.of_straight keepsOff_still h.straight m

end MadeOf

theorem safeFreeStr_inner (s : Option Str) : Inner (safeFreeStr s) := by
  cases s with
  | none => exact .pure
  | some s => exact .call trivial

theorem safeFreeArray_inner (p : Option Nat) : Inner (safeFreeArray p) := by
  cases p with
  | none => exact .pure
  | some p => exact .call trivial

theorem topicFree_inner (tt : Nat) : Inner (tekKafkaTopicFree tt) :=
  .op trivial fun v => (safeFreeStr_inner v.name).bind fun _ => .call trivial

theorem freeTopics_inner (tts : List Nat) : Inner (Prog.forEach tekKafkaTopicFree tts) :=
  Prog.Straight.forEach topicFree_inner tts

theorem dispose_inner (tk : Option Nat) : Inner (tekKafkaProducerDispose tk) := by
  cases tk with
  | none => exact .pure
  | some tk =>
      refine .op trivial fun v => .op trivial fun _ => ?_
      have hjoin : Inner (joinPollThread tk v) := by
        unfold joinPollThread
        split
        · exact .op trivial fun _ => .call trivial
        · exact .pure
      have hdestroy : Inner (destroyInstance tk v) := by
        unfold destroyInstance
        split
        · exact .pure
        · exact .op trivial fun _ => .op trivial fun _ => .call trivial
      have hconf : Inner (destroyConf v.conf) := by
        cases v.conf with
        | none => exact .pure
        | some conf => exact .call trivial
      refine hjoin.bind fun _ => hdestroy.bind fun _ => hconf.bind fun _ => ?_
      exact (safeFreeStr_inner _).bind fun _ => .call trivial

/-- The call sets a property, or looks for one. -/
def Op.Sets : Op → Prop
  | .readStr _ | .loadTk _ | .rdKafkaConfSet _ _ _ => True
  | _                                              => False

theorem Op.Sets.still {o : Op} (ho : o.Sets) : o.Still := by
  cases o <;> first | exact ho.elim | trivial

theorem confSetAll_sets (conf : Nat) (ps : List (CStr × CStr)) :
    MadeOf Op.Sets (kafkaConfSetAll conf ps) := by
  induction ps with
  | nil => exact .pure
  | cons p ps ih =>
      refine MadeOf.op trivial fun r => ?_
      cases r with
      | ok u => exact ih
      | error text => exact .pure

theorem producerSetParam_sets (tk : Nat) (name value : CStr) :
    MadeOf Op.Sets (tekKafkaProducerSetParam tk name value) := by
  unfold tekKafkaProducerSetParam
  split
  · exact .pure
  · refine .op trivial fun v => ?_
    split
    · exact .pure
    · exact .call trivial

theorem applyParams_sets (tk : Nat) (ps : List KafkaParam) : MadeOf Op.Sets (applyParams tk ps) := by
  induction ps with
  | nil => exact .pure
  | cons p ps ih =>
      refine .op trivial fun name => .op trivial fun value => ?_
      refine (producerSetParam_sets tk name value).bind fun r => ?_
      split
      · exact .pure
      · exact ih

theorem create_inner (brokers : CStr) : Inner (tekKafkaProducerCreate brokers) := by
  unfold tekKafkaProducerCreate
  split
  · exact .pure
  · refine .op trivial fun tk => ?_
    split
    · exact .pure
    · refine .op trivial fun dup => .op trivial fun conf => .op trivial fun _ => ?_
      split
      · refine ((confSetAll_sets _ _).mono fun _ ho => ho.still).bind fun set => ?_
        split
        · exact .pure
        · exact (dispose_inner _).bind fun _ => .pure
      · exact (dispose_inner _).bind fun _ => .pure

theorem applyParams_inner (tk : Nat) (ps : List KafkaParam) : Inner (applyParams tk ps) :=
  (applyParams_sets tk ps).mono fun _ ho => ho.still

/-! ### The functions -/

section meets

variable {J : Tab → Prop} {T : Tab}

/-- The thread is started once, where there is none. -/
theorem run_keepsOff {tk : Nat} (hT : T.Threadless) :
    keepsOff.Meets iface J (tekKafkaProducerRun tk) (some T) fun _ _ => True := by
  refine (meets_loadTk (D := keepsOff) trivial).seq ?_
  rintro v _ ⟨-, rfl⟩
  cases v.conf with
  | none => exact .pure trivial
  | some conf =>
      refine ((MadeOf.call (o := .rdKafkaConfSetDrMsgCb conf) trivial).meets hT).seq ?_
      rintro _ _ ⟨T₁, rfl, hT₁⟩
      refine ((MadeOf.call (o := .rdKafkaNew conf) trivial).meets hT₁).seq ?_
      rintro r _ ⟨T₂, rfl, hT₂⟩
      cases r with
      | error text =>
          have hrest : Inner (do
              call (.rdKafkaConfDestroy conf)
              call (.storeTk tk { v with rk := none, conf := none })
              pure (.error text : Except String Unit)) :=
            .op trivial fun _ => .op trivial fun _ => .pure
          exact hrest.meets_any _
      | ok rk =>
          refine ((MadeOf.call (o := .storeTk tk _) trivial).meets hT₂).seq ?_
          rintro _ _ ⟨T₃, rfl, hT₃⟩
          refine Duty.Meets.seq (P := fun _ _ => True)
            (.op (o := Op.pthreadCreate tk) hT₃ fun _ _ _ _ _ _ _ => trivial) fun thr m _ => ?_
          cases thr with
          | none =>
              have hrest : Inner (do
                  call (.storeTk tk { v with rk := some rk, conf := none, running := false })
                  pure (.error "Cannot start the poll thread" : Except String Unit)) :=
                .op trivial fun _ => .pure
              exact hrest.meets_any m
          | some thr =>
              have hrest : Inner (do
                  call (.storeTk tk { v with
                    rk := some rk, conf := none, running := true, thread := thr
                    threadStarted := true })
                  pure (.ok () : Except String Unit)) :=
                .op trivial fun _ => .pure
              exact hrest.meets_any m

/-- Without a producer there is no poll thread. -/
theorem TableInv.threadless (hT : TableInv T) (hp : T.kt.producer.isSome ≠ true) :
    T.Threadless := by
  obtain ⟨W, -, h⟩ := hT
  cases hc : W.conn with
  | none =>
      have hzero : W.cells.threads = 0 := by simp [World.cells, hc]
      exact Heap.Holds.not_live (hzero ▸ h.threads)
  | some c =>
      refine absurd ?_ hp
      rw [h.kt]
      simp [World.cells, World.kt, hc]

theorem connectLocked_keepsOff {brokers : CStr} (hT : TableInv T) :
    keepsOff.Meets iface J (kafkaTableConnectLocked brokers) (some T) fun _ _ => True := by
  refine (meets_loadKt (D := keepsOff) trivial).seq ?_
  rintro _ _ ⟨rfl, rfl⟩
  split
  · exact .pure trivial
  · rename_i hp
    refine ((create_inner brokers).meets (hT.threadless hp)).seq ?_
    rintro r _ ⟨T₁, rfl, hT₁⟩
    cases r with
    | none => exact .pure trivial
    | some tk =>
        refine ((applyParams_inner tk _).meets hT₁).seq ?_
        rintro r _ ⟨T₂, rfl, hT₂⟩
        cases r with
        | error text => exact ((dispose_inner _).bind fun _ => .pure).meets_any _
        | ok u =>
            refine (run_keepsOff hT₂).seq fun r m _ => ?_
            cases r with
            | error text => exact ((dispose_inner _).bind fun _ => .pure).meets_any m
            | ok u => exact (MadeOf.op (o := .storeKt _) trivial fun _ => .pure).meets_any m

/-- A registered topic is disposed of by destroying its handle. -/
theorem topicDispose_keepsOff {tt : Nat} {v : TekTopic} {h : Nat} (hv : T.topics.get tt = some v)
    (hrkt : v.rkt = some h) {Q : Unit → Option Tab → Prop} :
    keepsOff.Meets iface J (tekKafkaTopicDispose tt) (some T) Q := by
  refine (meets_loadTopic (D := keepsOff) trivial).seq ?_
  rintro w _ ⟨hw, rfl⟩
  obtain rfl : w = v := Option.some.inj (hw.symm.trans hv)
  rw [hrkt]
  exact Duty.Meets.seq (P := fun _ _ => False) (.stop ⟨h, rfl⟩) fun _ _ e => e.elim

theorem remove_keepsOff (hT : TableInv T) (idx : Nat) :
    keepsOff.Meets iface J (kafkaTableRemoveLocked idx) (some T) fun _ _ => True := by
  refine (meets_loadKt (D := keepsOff) trivial).seq ?_
  rintro _ _ ⟨rfl, rfl⟩
  cases hi : T.kt.topics.items[idx]? with
  | none => exact (MadeOf.call (o := .undefined) trivial).meets_any _
  | some tt =>
      obtain ⟨v, h, tk, p, rk, k, hv, hrkt, -⟩ := hT.onCurrent (List.mem_of_getElem? hi)
      refine Duty.Meets.seq (P := fun _ m => ∃ T', m = some T' ∧ T'.topics = T.topics)
        (.op trivial fun t a d r T' d' ha => ?_) ?_
      · cases ha
        exact ⟨_, rfl, rfl⟩
      · rintro _ _ ⟨T', rfl, htopics⟩
        refine Duty.Meets.seq (P := fun _ _ => False) ?_ fun _ _ e => e.elim
        exact topicDispose_keepsOff (htopics ▸ hv) hrkt

theorem dismissEntry_keepsOff (hT : TableInv T) (topic : CStr) :
    keepsOff.Meets iface J (dismissEntry topic) (some T) fun _ _ => True := by
  refine (meets_loadKt (D := keepsOff) trivial).seq ?_
  rintro _ _ ⟨rfl, rfl⟩
  refine (meets_scan keepsOff_leaves _ 0 fun _ _ => trivial).seq ?_
  rintro found _ ⟨rfl, -⟩
  cases found with
  | none => exact .pure trivial
  | some x =>
      refine (meets_flush keepsOff_leaves fun _ _ => trivial).seq ?_
      rintro _ _ rfl
      exact (remove_keepsOff hT x.1).seq fun _ _ _ => .pure trivial

theorem dismissAllLocked_keepsOff (hT : TableInv T) :
    keepsOff.Meets iface J kafkaTableDismissAllLocked (some T) fun _ _ => True := by
  refine (meets_loadKt (D := keepsOff) trivial).seq ?_
  rintro _ _ ⟨rfl, rfl⟩
  refine (meets_flush keepsOff_leaves fun _ _ => trivial).seq ?_
  rintro _ _ rfl
  cases hi : T.kt.topics.items with
  | cons tt tts =>
      have htt : tt ∈ T.kt.topics.items := by
        rw [hi]
        exact List.mem_cons_self
      obtain ⟨v, h, tk, p, rk, k, hv, hrkt, -⟩ := hT.onCurrent htt
      refine Duty.Meets.seq (P := fun _ _ => False) ?_ fun _ _ e => e.elim
      refine Duty.Meets.seq (P := fun _ _ => False) ?_ fun _ _ e => e.elim
      exact topicDispose_keepsOff hv hrkt
  | nil =>
      have hrest : Inner (do
          tekKafkaProducerDispose T.kt.producer
          call (.storeKt { T.kt with producer := none })
          Prog.forEach tekKafkaTopicFree []
          safeFreeArray T.kt.topics.ptr
          call (.storeKt { T.kt with producer := none, topics := .null })
          Prog.forEach tekKafkaTopicFree T.kt.retired.items
          safeFreeArray T.kt.retired.ptr
          call (.storeKt { T.kt with producer := none, topics := .null, retired := .null })) := by
        refine (dispose_inner _).bind fun _ => .op trivial fun _ => ?_
        refine (freeTopics_inner _).bind fun _ => (safeFreeArray_inner _).bind fun _ => ?_
        refine .op trivial fun _ => (freeTopics_inner _).bind fun _ => ?_
        exact (safeFreeArray_inner _).bind fun _ => .call trivial
      exact hrest.meets_any _

/-- **Every call** starts a thread where there is none, and flushes a throttle after it destroyed
a handle. -/
theorem tableProg_keepsOff (c : TableCall) :
    keepsOff.Meets iface TableInv (tableProg c) none fun _ _ => True := by
  have htame : ∀ {α : Type} {p : K α}, p.Straight Op.Tame → ∀ m,
      keepsOff.Meets iface TableInv p m fun _ _ => True := fun hp m =>
    .of_straight (fun o T ho => keepsOff_still o T ho.mild.still) hp m
  cases c with
  | connected => exact htame connected_tame none
  | validateParam name value => exact htame (validateParam_tame name value) none
  | setParam name value => exact htame (setParam_tame name value) none
  | getBrokers buflen => exact htame (getBrokers_tame buflen) none
  | describeParams buflen => exact htame (kafkaTableDescribeParams_tame buflen) none
  | «exists» topic => exact htame (exists_tame topic) none
  | create topicName => exact htame (create_tame topicName) none
  | unsetParam name => exact htame (unsetParam_tame name) none
  | getStats topic => exact htame (getStats_tame topic) none
  | send topic data =>
      exact meets_send keepsOff_leaves topic data fun _ _ _ _ => ⟨trivial, fun _ _ _ _ => trivial⟩
  | connect brokers =>
      cases brokers with
      | none => exact .pure trivial
      | some b =>
          simp only [tableProg, kafkaTableConnect]
          split
          · exact .pure trivial
          · exact .writing fun T hT => (connectLocked_keepsOff hT).mono fun _ _ _ => .pure trivial
  | dismiss topic =>
      cases topic with
      | none => exact .pure trivial
      | some n =>
          simp only [tableProg, kafkaTableDismiss]
          split
          · exact .pure trivial
          · refine .writing fun T hT => (dismissEntry_keepsOff hT n).seq fun r m _ => ?_
            exact (htame reap_tame m).seq fun _ _ _ => .pure (.pure trivial)
  | dismissAll =>
      exact .writing fun T hT => (dismissAllLocked_keepsOff hT).mono fun _ _ _ => .pure trivial

end meets

end TrigEmit
