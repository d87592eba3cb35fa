import TrigEmitKafka.Rules.Quick
import TrigEmitKafka.Support.Progress

/-!
# Rules — calls that are granted what they ask for

Every call is answered `.ok`: each allocation and each call of librdkafka succeeds.  What an answer
`.ok` cannot be given to is an allocation above `PTRDIFF_MAX` and a payload above
`message.max.bytes`; and a call that joins a thread or destroys an instance may have to wait, so
where a failed `kafka_table_connect` does that the proofs say that it does not come to it.

* `granted_returns`: a call that so ends returns, from any table state.
* `connect_ends`, `setParam_ends`, `create_ends`, `send_ends`: they do.
-/

namespace TrigEmit

open Conc (LProg LockCall Prog exec)
open Conc.Logic (Allowed alone exec_endsOn)
open Store.Heap (get_alloc_next get_set_self)

/-- The call from outside succeeds, perhaps once the queue has room. -/
def Ans.Granted (a : Ans) : Prop := a = .ok ∨ a = .queueFull

theorem not_mayFail_granted : ¬ MayFail (alone Ans.Granted) := by
  rintro ⟨err, text, h | h⟩
  · cases h
  · cases h

/-- The operation can be answered `.ok`. -/
def Op.Grantable : Op → Prop
  | .rdKafkaDestroy _ | .pthreadJoin _ => False
  | .realloc _ n                       => n ≤ ptrdiffMax
  | .rdKafkaProduce _ payload _ _      => payload.length ≤ messageMaxBytes
  | _                                  => True

theorem Op.Grantable.ready {t : Nat} {h : Conc.Held} {o : Op} {T : Tab} {d : Flow}
    (ho : o.Grantable) (hv : o.Valid t h T d) : (o.act t .ok T d).isSome := by
  cases o with
  | rdKafkaDestroy rk => exact ho.elim
  | pthreadJoin thr => exact ho.elim
  | undefined => exact hv.elim
  | loadTopic p => exact (Option.isSome_map ..).trans hv.2
  | loadTk p => exact (Option.isSome_map ..).trans hv.2
  | rdKafkaConfSet c name value => exact (Option.isSome_map ..).trans hv.2
  | rdKafkaConfSetDrMsgCb p => exact (Option.isSome_map ..).trans hv.2
  | rdKafkaNew p => exact (Option.isSome_map ..).trans hv.2
  | realloc old n =>
      simp only [Op.act]
      rw [if_pos (show n ≤ ptrdiffMax from ho)]
      rfl
  | rdKafkaProduce rkt payload key tt =>
      simp only [Op.act]
      rw [if_pos (show payload.length ≤ messageMaxBytes from ho)]
      rfl
  | _ => rfl

/-- The array has room for one more element, or can be had with it. -/
def CArray.HasRoom {α : Type} (a : CArray α) (itemsize : Nat) : Prop :=
  a.items.length < a.capacity ∨ sizeT (a.nextCapacity * itemsize) ≤ ptrdiffMax

/-- Granted what it asks for, the program ends. -/
abbrev GrantedEnds {α : Type} (p : K α) (T : Tab) (Q : α → Tab → Prop) : Prop :=
  p.EndsOn iface .ok Op.Grantable T Q

/-- **A call that so ends returns.** -/
theorem TableState.granted_returns (s : TableState) (t : Nat) {c : TableCall}
    {Q : c.Ret → Tab → Prop} (hc : GrantedEnds (tableProg c) s.sh Q) :
    ∃ course r T d, Allowed Ans.Granted course ∧
      exec iface t (tableProg c) course s.sh s.fr = some (r, T, d) ∧ Q r T := by
  obtain ⟨W, hW, hT⟩ := s.world
  have hsafe : logic.Safe (alone Ans.Granted) (tableProg c)
      ⟨.none, s.sh, View.of t s.sh s.fr⟩ (CallEnds Ans.Granted c W (View.of t s.sh s.fr)) :=
    tableProg_alone c (At.of t .none hT) hW
  refine exec_endsOn (L := logic) (b := View.of t s.sh s.fr) (a := .ok) (Or.inl rfl)
    (fun ho hv => ho.ready hv) s.inv (Eq.refl (s.fr.scratch t)) (View.sees_of t s.inv) ?_ hsafe hc
  rintro x m ⟨W', b', hm, -⟩
  exact hm.held

section ends

variable {α : Type} {T : Tab}

/-- A program of look-ups leaves the table. -/
theorem peeks_ends {p : K α} (h : Prog.Straight Peeks p) : GrantedEnds p T fun _ T' => T' = T := by
  have hp : p.Straight fun o => Peeks (.op o) := by
    refine h.mono fun c hc => ?_
    cases c with
    | op o => exact hc
    | _ => trivial
  refine .of_straight (K := fun T' => T' = T) hp ?_ ?_ rfl
  · intro o ho
    cases o <;> trivial
  · intro t o T₁ d r T' d' ho hT ha
    subst hT
    cases o with
    | loadKt => cases ha; rfl
    | readStr s => cases ha; rfl
    | loadTopic p =>
        obtain ⟨v, -, e⟩ := Option.map_eq_some_iff.mp ha
        cases e
        rfl
    | loadTk p =>
        obtain ⟨v, -, e⟩ := Option.map_eq_some_iff.mp ha
        cases e
        rfl
    | undefined => cases ha
    | _ => exact ho.elim

/-- A program that asks for no array ends. -/
theorem arrayless_ends {p : K α} (h : p.Straight Op.Arrayless) :
    GrantedEnds p T fun _ _ => True := by
  refine .of_straight (K := fun _ => True) h ?_ (fun _ _ _ => trivial) trivial
  intro o ho
  cases o <;> trivial

/-- So does one that then goes on to a program that ends. -/
theorem arrayless_seq {γ : Type} {p : K α} {f : α → K γ} (h : p.Straight Op.Arrayless)
    (hf : ∀ x T', GrantedEnds (f x) T' fun _ _ => True) :
    GrantedEnds (p >>= f) T fun _ _ => True :=
  (arrayless_ends h).seq fun x T' _ => hf x T'

/-- Growth where there is room, or room can be had. -/
theorem grow_ends {β : Type} {a : CArray β} {itemsize : Nat} (h : a.HasRoom itemsize) :
    GrantedEnds (kafkaTableGrow a itemsize) T fun _ _ => True := by
  unfold kafkaTableGrow
  split
  · trivial
  · rename_i hfull
    refine ⟨h.resolve_left hfull, fun t d r T' d' _ => ?_⟩
    cases r <;> trivial

theorem reading_ends {body : K α} {Q : α → Tab → Prop} (h : GrantedEnds body T Q) :
    GrantedEnds (reading body) T Q :=
  h.seq fun _ _ hQ => hQ

theorem writing_ends {body : K α} {Q : α → Tab → Prop} (h : GrantedEnds body T Q) :
    GrantedEnds (writing body) T Q :=
  h.seq fun _ _ hQ => hQ

theorem exists_ends (topic : Option CStr) :
    GrantedEnds (kafkaTableExists topic) T fun _ T' => T' = T :=
  reading_ends ((peeks_ends (peeks_find topic)).seq fun _ _ hT' => hT')

/-! ### `kafka_table_connect` -/

theorem confSet_ends (c : Nat) (name value : CStr) :
    GrantedEnds (kafkaConfSet c name value) T fun r T' => r = .ok () ∧ T'.producers = T.producers := by
  refine ⟨trivial, fun t d r T' d' ha => ?_⟩
  obtain ⟨v, -, e⟩ := Option.map_eq_some_iff.mp ha
  cases e
  exact ⟨rfl, rfl⟩

theorem confSetAll_ends (c : Nat) (props : List (CStr × CStr)) :
    GrantedEnds (kafkaConfSetAll c props) T fun ok T' => ok = true ∧ T'.producers = T.producers := by
  induction props generalizing T with
  | nil => exact ⟨rfl, rfl⟩
  | cons x props ih =>
      refine (confSet_ends c x.1 x.2).seq ?_
      rintro r T' ⟨rfl, hT'⟩
      refine ih.mono ?_
      rintro ok T'' ⟨hok, hT''⟩
      exact ⟨hok, hT''.trans hT'⟩

/-- The producer has the configuration `c`, which it has not handed over. -/
def Configured (tk c : Nat) (T : Tab) : Prop := ∃ v, T.producers.get tk = some v ∧ v.conf = some c

theorem Configured.same {tk c : Nat} {T' : Tab} (h : Configured tk c T)
    (e : T'.producers = T.producers) : Configured tk c T' := by
  rwa [Configured, e]

theorem producerCreate_ends {brokers : CStr} (hb : zstr (some brokers) = false) :
    GrantedEnds (tekKafkaProducerCreate brokers) T fun r T' =>
      ∃ tk c, r = some tk ∧ Configured tk c T' := by
  unfold tekKafkaProducerCreate
  rw [if_neg (by rw [hb]; exact Bool.false_ne_true)]
  refine .op trivial ?_
  intro t d r T₁ d' ha
  obtain ⟨tk, rfl, hlive⟩ : ∃ tk, r = some tk ∧ T₁.producers.get tk = some .zero := by
    cases ha
    exact ⟨_, rfl, get_alloc_next _ _⟩
  clear ha
  refine .op trivial ?_
  intro t d r T₂ d' ha
  obtain ⟨dup, rfl, hT₂⟩ : ∃ dup, r = some dup ∧ T₂.producers = T₁.producers := by
    cases ha
    exact ⟨_, rfl, rfl⟩
  clear ha
  refine .op trivial ?_
  intro t d r T₃ d' ha
  obtain ⟨c, rfl, hT₃⟩ : ∃ c, r = some c ∧ T₃.producers = T₂.producers := by
    cases ha
    exact ⟨_, rfl, rfl⟩
  clear ha
  refine .op trivial ?_
  intro t d r T₄ d' ha
  have hc : Configured tk c T₄ := by
    cases ha
    exact ⟨_, get_set_self (by rw [hT₃, hT₂]; exact hlive), rfl⟩
  clear ha
  refine (confSetAll_ends _ _).seq ?_
  rintro ok T₅ ⟨rfl, hT₅⟩
  exact ⟨tk, c, rfl, hc.same hT₅⟩

theorem setParam_of_configured {tk c : Nat} {name value : CStr} (hn : zstr (some name) = false)
    (hc : Configured tk c T) : GrantedEnds (tekKafkaProducerSetParam tk name value) T fun r T' =>
      r = .ok () ∧ T'.producers = T.producers := by
  obtain ⟨v, hv, hconf⟩ := hc
  unfold tekKafkaProducerSetParam
  rw [if_neg (by rw [hn]; exact Bool.false_ne_true)]
  refine .op trivial ?_
  intro t d v' T₁ d' ha
  obtain ⟨w, hw, e⟩ := Option.map_eq_some_iff.mp ha
  cases hv.symm.trans hw
  cases e
  simp only [hconf]
  exact confSet_ends c name value

theorem applyParams_ends {tk c : Nat} {ps : List KafkaParam}
    (hps : ∀ p ∈ ps, zstr (some p.name.val) = false) (hc : Configured tk c T) :
    GrantedEnds (applyParams tk ps) T fun r T' => r = .ok () ∧ Configured tk c T' := by
  induction ps generalizing T with
  | nil => exact ⟨rfl, hc⟩
  | cons p ps ih =>
      obtain ⟨hp, hps⟩ := List.forall_mem_cons.mp hps
      refine .op trivial ?_
      intro t d name T₁ d' ha
      cases ha
      refine .op trivial ?_
      intro t d value T₁ d' ha
      cases ha
      refine (setParam_of_configured hp hc).seq ?_
      rintro r T' ⟨rfl, hT'⟩
      exact ih hps (hc.same hT')

theorem producerRun_ends {tk c : Nat} (hc : Configured tk c T) :
    GrantedEnds (tekKafkaProducerRun tk) T fun r _ => r = .ok () := by
  obtain ⟨v, hv, hconf⟩ := hc
  refine .op trivial ?_
  intro t d v' T₁ d' ha
  obtain ⟨w, hw, e⟩ := Option.map_eq_some_iff.mp ha
  cases hv.symm.trans hw
  cases e
  simp only [hconf]
  refine .op trivial fun t d _ T₂ d' _ => .op trivial fun t d r T₃ d' ha => ?_
  obtain ⟨conf, -, e⟩ := Option.map_eq_some_iff.mp ha
  cases e
  refine .op trivial fun t d _ T₄ d' _ => .op trivial fun t d r T₅ d' ha => ?_
  cases ha
  exact .op trivial fun t d _ T₆ d' _ => rfl

/-- While no stored parameter is nameless, a connect ends. -/
theorem connect_ends {brokers : CStr} (hb : zstr (some brokers) = false)
    (hps : ∀ p ∈ T.kt.params.items, zstr (some p.name.val) = false) :
    GrantedEnds (kafkaTableConnect (some brokers)) T fun _ _ => True := by
  simp only [kafkaTableConnect]
  rw [if_neg (by rw [hb]; exact Bool.false_ne_true)]
  refine writing_ends (.op trivial ?_)
  intro t d kt T₁ d' ha
  cases ha
  split
  · trivial
  refine (producerCreate_ends hb).seq ?_
  rintro r T₁ ⟨tk, c, rfl, hc⟩
  refine (applyParams_ends hps hc).seq ?_
  rintro r T₂ ⟨rfl, hc⟩
  refine (producerRun_ends hc).seq ?_
  rintro r T₃ rfl
  exact .op trivial fun t d _ T₄ d' _ => trivial

/-! ### `kafka_table_set_param` -/

theorem validateParam_ends (name value : Option CStr) :
    GrantedEnds (kafkaTableValidateParam name value) T fun _ T' => T' = T := by
  unfold kafkaTableValidateParam
  split
  · split
    · rfl
    refine .op trivial ?_
    intro t d scratch T₁ d' ha
    cases ha
    refine .op trivial ?_
    intro t d r T₁ d' ha
    cases ha
    refine .op trivial ?_
    intro t d _ T₁ d' ha
    cases ha
    rfl
  · rfl

/-- Where the parameters have room, storing one ends. -/
theorem setParam_ends (name value : Option CStr) (hroom : T.kt.params.HasRoom paramSize) :
    GrantedEnds (kafkaTableSetParam name value) T fun _ _ => True := by
  refine (validateParam_ends name value).seq ?_
  rintro r T' rfl
  split
  · refine writing_ends (.op trivial fun t d kt T₁ d' ha => ?_)
    cases ha
    split
    · trivial
    refine arrayless_seq (Prog.Straight.scan (fun p => paramIs_arrayless _ p) _ _) ?_
    intro found T₁
    split
    · refine arrayless_ends (LProg.Straight.op trivial fun dup => ?_)
      split
      · exact .pure
      · exact .op trivial fun _ => .op trivial fun _ => .pure
    · refine (grow_ends hroom).seq fun grown T₂ _ => ?_
      split
      · trivial
      · refine arrayless_ends (.op trivial fun _ => .op trivial fun dupname =>
          .op trivial fun dupvalue => ?_)
        split
        · exact .op trivial fun _ => .pure
        · exact (safeFreeStr_arrayless _).bind fun _ => (safeFreeStr_arrayless _).bind fun _ => .pure
  · trivial
  · trivial

/-! ### `kafka_table_create` and `kafka_table_send` -/

/-- Where the topics have room, creating one ends. -/
theorem create_ends (topic : Option CStr) (hroom : T.kt.topics.HasRoom topicSize) :
    GrantedEnds (kafkaTableCreate topic) T fun _ _ => True := by
  have hentry : GrantedEnds (createEntry topic) T fun _ _ => True := by
    refine (peeks_ends (peeks_find topic)).seq ?_
    rintro found T' rfl
    split
    · trivial
    refine .op trivial ?_
    intro t d kt T₁ d' ha
    cases ha
    split
    · trivial
    refine (grow_ends hroom).seq fun grown T₂ _ => ?_
    split
    · trivial
    · refine arrayless_ends (.op trivial fun _ => (topicCreate_arrayless _ _).bind fun tt => ?_)
      split
      · exact .pure
      · exact .op trivial fun _ => .pure
  exact writing_ends (hentry.seq fun res T' _ => arrayless_ends (reap_arrayless.bind fun _ => .pure))

theorem feedRound_granted (tt rkt rk : Nat) (key : Option (List UInt8)) {data : List UInt8}
    (hlen : data.length ≤ messageMaxBytes) :
    GrantedEnds (feedRound tt rkt rk key data) T fun x _ => x = some .success := by
  refine .op hlen ?_
  intro t d r T₁ d' ha
  simp only [iface, Op.act, if_pos hlen] at ha
  cases ha
  exact ⟨trivial, fun t d _ T₂ d' _ => ⟨trivial, fun t d _ T₃ d' _ => rfl⟩⟩

theorem feed_granted (tt : Nat) {data : List UInt8} (hlen : data.length ≤ messageMaxBytes) :
    GrantedEnds (tekKafkaTopicFeed tt data) T fun _ _ => True := by
  refine .op trivial ?_
  intro t d v T₁ d' _
  split
  · refine .op trivial fun t d p T₂ d' _ => ?_
    split
    · trivial
    · refine (feedRound_granted _ _ _ _ hlen).mono ?_
      rintro x T₃ rfl
      exact ⟨_, rfl, trivial⟩
  · trivial

/-- A send whose message librdkafka can take ends. -/
theorem send_ends (topic : Option CStr) {data : List UInt8} (hlen : data.length ≤ messageMaxBytes) :
    GrantedEnds (kafkaTableSend topic data) T fun _ _ => True := by
  have hbody : GrantedEnds (sendBody topic data) T fun _ _ => True := by
    refine (peeks_ends (peeks_find topic)).seq fun found T' _ => ?_
    split
    · trivial
    · exact (feed_granted _ hlen).seq fun status T'' _ => trivial
  rw [kafkaTableSend_eq]
  exact hbody.seq fun sent T' _ => trivial

end ends

end TrigEmit
