import TrigEmitKafka.Rules.World
import TrigEmitKafka.Support.Duties

/-!
# Rules — what the functions rely on under the lock

The calls that only look leave the guarded state as it is, so what they return stays true until the
thread writes or lets go of the lock.  Here are the searches and the loop of
`tek_kafka_topic_feed_key`, for any `Duty` that asks nothing of a call which leaves the guarded
state alone, other than to load a record or a producer.
-/

namespace TrigEmit

open Conc (Duty Prog)

/-- The call leaves the guarded state alone, and loads neither a record nor a producer. -/
def Op.Leaves : Op → Prop
  | .loadKt | .readStr _ | .serveBegin _ | .serveEnd | .rdKafkaOutqLen _ | .undefined => True
  | .rdKafkaProduce _ _ _ _ | .loadTransferred _ | .loadFailed _ => True
  | _ => False

theorem Op.Leaves.act {o : Op} {t : Nat} {a : Ans} {T T' : Tab} {d d' : Flow} {r : o.Res}
    (ho : o.Leaves) (ha : o.act t a T d = some (r, T', d')) : T' = T := by
  cases o <;> first | exact ho.elim | skip
  all_goals cases a <;> simp only [Op.act] at ha <;> first
    | (cases ha; done)
    | (cases ha; rfl)
    | (split at ha <;> cases ha; rfl)

section duty

variable {D : Duty Tab Op} {J : Tab → Prop} {T : Tab}

theorem meets_leaves {o : Op} (hn : D.needs o T) (ho : o.Leaves) :
    D.Meets iface J (call o) (some T) fun _ m => m = some T :=
  .op hn fun _ _ _ _ _ _ ha => congrArg some (ho.act ha)

theorem meets_loadKt (hn : D.needs .loadKt T) :
    D.Meets iface J (call .loadKt) (some T) fun r m => r = T.kt ∧ m = some T := by
  refine .op hn fun t a d r T' d' ha => ?_
  cases ha
  exact ⟨rfl, rfl⟩

theorem meets_loadTopic {p : Nat} (hn : D.needs (.loadTopic p) T) :
    D.Meets iface J (call (.loadTopic p)) (some T) fun r m =>
      T.topics.get p = some r ∧ m = some T := by
  refine .op hn fun t a d r T' d' ha => ?_
  obtain ⟨v, hv, e⟩ := Option.map_eq_some_iff.mp ha
  cases e
  exact ⟨hv, rfl⟩

theorem meets_loadTk {p : Nat} (hn : D.needs (.loadTk p) T) :
    D.Meets iface J (call (.loadTk p)) (some T) fun r m =>
      T.producers.get p = some r ∧ m = some T := by
  refine .op hn fun t a d r T' d' ha => ?_
  obtain ⟨v, hv, e⟩ := Option.map_eq_some_iff.mp ha
  cases e
  exact ⟨hv, rfl⟩

variable (hfree : ∀ o T, o.Leaves → D.needs o T)
include hfree

theorem meets_topicIs {n : CStr} {p : Nat} (hp : D.needs (.loadTopic p) T) :
    D.Meets iface J (topicIs n p) (some T) fun _ m => m = some T := by
  refine (meets_loadTopic hp).seq ?_
  rintro v _ ⟨-, rfl⟩
  cases v.name with
  | none =>
      refine (meets_leaves (hfree .undefined T trivial) trivial).seq ?_
      rintro _ _ rfl
      exact .pure rfl
  | some s =>
      refine (meets_leaves (hfree (.readStr s) T trivial) trivial).seq ?_
      rintro _ _ rfl
      exact .pure rfl

/-- A search passes the records of its list, and answers with one of them. -/
theorem meets_scan {n : CStr} (as : List Nat) (i : Nat)
    (has : ∀ p ∈ as, D.needs (.loadTopic p) T) :
    D.Meets iface J (Prog.scan (topicIs n) i as) (some T) fun r m =>
      m = some T ∧ ∀ x, r = some x → x.2 ∈ as := by
  induction as generalizing i with
  | nil => exact .pure ⟨rfl, fun x e => by cases e⟩
  | cons p as ih =>
      refine (meets_topicIs hfree (has p List.mem_cons_self)).seq ?_
      rintro found _ rfl
      cases found with
      | true =>
          refine .pure ⟨rfl, fun x e => ?_⟩
          cases e
          exact List.mem_cons_self
      | false =>
          refine (ih (i + 1) fun q hq => has q (List.mem_cons_of_mem p hq)).mono ?_
          rintro r m ⟨hm, hr⟩
          exact ⟨hm, fun x e => List.mem_cons_of_mem p (hr x e)⟩

theorem meets_find (topic : Option CStr)
    (htopics : ∀ p ∈ T.kt.topics.items, D.needs (.loadTopic p) T) :
    D.Meets iface J (kafkaTableFindLocked topic) (some T) fun r m =>
      m = some T ∧ ∀ tt, r = some tt → tt ∈ T.kt.topics.items := by
  cases topic with
  | none => exact .pure ⟨rfl, fun x e => by cases e⟩
  | some n =>
      refine (meets_loadKt (hfree .loadKt T trivial)).seq ?_
      rintro _ _ ⟨rfl, rfl⟩
      refine (meets_scan hfree T.kt.topics.items 0 htopics).seq ?_
      rintro r _ ⟨rfl, hr⟩
      refine .pure ⟨rfl, fun tt e => ?_⟩
      obtain ⟨x, rfl, rfl⟩ := Option.map_eq_some_iff.mp e
      exact hr x rfl

theorem meets_poll (rk : Nat) :
    D.Meets iface J (rdKafkaPoll rk) (some T) fun _ m => m = some T := by
  refine (meets_leaves (hfree (.serveBegin rk) T trivial) trivial).seq ?_
  rintro _ _ rfl
  exact meets_leaves (hfree .serveEnd T trivial) trivial

theorem meets_feedKey {tt rkt rk klen : Nat} {key : Option (List UInt8)} {data : List UInt8} :
    D.Meets iface J (tekKafkaTopicFeedKey tt rkt rk key klen data) (some T) fun _ m =>
      m = some T := by
  refine Prog.wp_loop (fun m => m = some T) rfl ?_
  rintro _ rfl
  refine Duty.Meets.seq (meets_leaves (hfree (.rdKafkaProduce _ _ _ _) T trivial) trivial) ?_
  rintro r _ rfl
  cases r with
  | ok u =>
      refine (meets_poll hfree rk).seq ?_
      rintro _ _ rfl
      exact .pure rfl
  | error err =>
      dsimp only
      split
      · refine (meets_poll hfree rk).seq ?_
        rintro _ _ rfl
        exact .pure rfl
      · exact .pure rfl

theorem meets_flush {tk : Option Nat} (htk : ∀ p, tk = some p → D.needs (.loadTk p) T) :
    D.Meets iface J (tekKafkaProducerFlush tk) (some T) fun _ m => m = some T := by
  cases tk with
  | none => exact .pure rfl
  | some tk =>
      refine (meets_loadTk (htk tk rfl)).seq ?_
      rintro v _ ⟨-, rfl⟩
      cases v.rk with
      | none => exact .pure rfl
      | some rk =>
          refine Duty.Meets.seq (meets_poll hfree rk) ?_
          rintro _ _ rfl
          exact meets_leaves (hfree (.rdKafkaOutqLen rk) T trivial) trivial

/-- What `tek_kafka_topic_feed` loads: the record, and its producer. -/
def MayFeed (D : Duty Tab Op) (T : Tab) (tt : Nat) : Prop :=
  D.needs (.loadTopic tt) T ∧
    ∀ v tk, T.topics.get tt = some v → v.producer = some tk → D.needs (.loadTk tk) T

theorem meets_feed {tt : Nat} {data : List UInt8} (htt : MayFeed D T tt) :
    D.Meets iface J (tekKafkaTopicFeed tt data) (some T) fun _ m => m = some T := by
  refine (meets_loadTopic htt.1).seq ?_
  rintro v _ ⟨hv, rfl⟩
  cases hrkt : v.rkt with
  | none => exact .pure rfl
  | some rkt =>
      cases htk : v.producer with
      | none => exact .pure rfl
      | some tk =>
          refine (meets_loadTk (htt.2 v tk hv htk)).seq ?_
          rintro p _ ⟨-, rfl⟩
          cases p.rk with
          | none => exact .pure rfl
          | some rk => exact meets_feedKey hfree

theorem meets_send (topic : Option CStr) (data : List UInt8)
    (htopics : ∀ T, J T → ∀ tt ∈ T.kt.topics.items, MayFeed D T tt) :
    D.Meets iface J (kafkaTableSend topic data) none fun _ _ => True := by
  refine Duty.Meets.seq (P := fun _ _ => True) (Duty.Meets.reading fun T hT => ?_)
    fun _ _ _ => .pure trivial
  refine (meets_find hfree topic fun p hp => (htopics T hT p hp).1).seq ?_
  rintro r _ ⟨rfl, hr⟩
  cases r with
  | none => exact .pure (.pure trivial)
  | some tt =>
      refine (meets_feed hfree (htopics T hT tt (hr tt rfl))).seq fun _ _ _ => ?_
      exact .pure (.pure trivial)

end duty

end TrigEmit
