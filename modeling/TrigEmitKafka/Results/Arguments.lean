import TrigEmitKafka.Results.Sending
import TrigEmitKafka.Results.Info

/-!
# Results — what the table gets of a SQL argument

A SQL string is counted; what a table function gets is the C string in a terminated copy of it,
which ends at the first NUL byte.

* `arguments_exact_iff`: a SQL function that is not refused hands the table its arguments byte for
  byte, in every state, exactly when none of them has a NUL byte inside it; the copies stay within
  their buffers at every length; and two accepted arguments without one give different C strings.
* `nulTopics_shared`: two topics that differ after a NUL byte are one topic of the table.
-/

namespace TrigEmit

open Conc (Cfg EnvSteps LProg exec exec_cons exec_nil exec_ret)
open Conc.Logic (allowed_any)

/-! ### Arguments -/

/-- The argument has no NUL byte. -/
def NoNul (arg : SqlArg) : Prop := ∀ bs, arg = some bs → (0 : UInt8) ∉ bs

/-- The argument is SQL NULL, longer than `limit`, empty, or begins with a NUL byte. -/
def Refusable (limit : Nat) (arg : SqlArg) : Prop :=
  ∀ b bs, arg = some (b :: bs) → limit < (b :: bs).length ∨ b = 0

/-- No argument has a NUL byte inside it, or one is refused whatever the other is. -/
def Command.Whole : Command → Prop
  | .connect brokers            => Refusable maxSetupVarLen brokers ∨ NoNul brokers
  | .connectionParam name value => Refusable maxSetupVarLen name ∨ NoNul name ∧ NoNul value ∨
      ∃ bs, value = some bs ∧ maxSetupVarLen < bs.length
  | .disconnect none            => True
  | .disconnect (some topic)    => Refusable maxTopicLen topic ∨ NoNul topic
  | .send topic msg             => msg = none ∨ Refusable maxTopicLen topic ∨ NoNul topic
  | .stats topic                => Refusable maxTopicLen topic ∨ NoNul topic
  | .info                       => True

/-- The call names exactly what the SQL function was given. -/
def Command.Names : Command → TableCall → Prop
  | .connect brokers, .connect b              => b.map (·.1) = brokers
  | .connectionParam name value, .setParam n v => n.map (·.1) = name ∧ v.map (·.1) = value
  | .connectionParam name _, .unsetParam n    => n.map (·.1) = name
  | .disconnect none, .dismissAll             => True
  | .disconnect (some topic), .dismiss t      => t.map (·.1) = topic
  | .send topic _, .exists t                  => t.map (·.1) = topic
  | .send topic _, .create t                  => t.map (·.1) = topic
  | .send topic msg, .send t data             => t.map (·.1) = topic ∧ some data = msg
  | .stats topic, .getStats t                 => t.map (·.1) = topic
  | .info, _                                  => True
  | _, _                                      => False

/-- The SQL function refused; `kafka_stats` then shows zero counters. -/
def Refused : (c : Command) → c.Ret → Prop
  | .connect _, r           => r = .failed
  | .connectionParam _ _, r => r = .failed
  | .disconnect _, r        => r = .failed
  | .send _ _, r            => r = .failed
  | .stats _, r             => r = statsLine 0 0
  | .info, _                => False

/-- From every table state a run comes to, it refuses and leaves the topics and the parameters, or
it hands the table exactly what it was given. -/
def Exact (package : PackageString) (c : Command) : Prop :=
  ∀ hs T d, FromLoad (fun _ => True) hs T d → ∀ t courses r T' d',
    exec tableIface t (commandProg package c) courses T d = some (r, T', d') →
    (Refused c r ∧ T'.seen.topics = T.seen.topics ∧ T'.seen.params = T.seen.params) ∨
      (commandProg package c).Straight c.Names

theorem terminated_some {limit : Nat} {arg : SqlArg} {s : CStr} (h : terminated limit arg = some s) :
    ∃ bs, arg = some bs ∧ bs ≠ [] ∧ bs.length ≤ limit ∧ s = CStr.ofBytes bs := by
  cases arg with
  | none => cases h
  | some bs =>
      simp only [terminated] at h
      split at h
      · cases h
      · rename_i hlen
        rw [not_or] at hlen
        rw [localCopy_eq (by omega)] at h
        cases h
        exact ⟨bs, rfl, fun e => hlen.1 (by rw [e]; rfl), by omega, rfl⟩

/-- The C string of an argument without a NUL byte is the argument. -/
theorem val_of_noNul {bs : List UInt8} (h : NoNul (some bs)) : (CStr.ofBytes bs).1 = bs :=
  congrArg Subtype.val (CStr.ofBytes_val ⟨bs, h bs rfl⟩)

/-- A refusable argument is refused by its length, or its C string is empty. -/
theorem zstr_of_refusable {limit : Nat} {arg : SqlArg} (h : Refusable limit arg) {s : CStr}
    (hs : terminated limit arg = some s) : zstr (some s) = true := by
  obtain ⟨bs, rfl, hne, hlen, rfl⟩ := terminated_some hs
  cases bs with
  | nil => exact absurd rfl hne
  | cons b bs =>
      have hb : b = 0 := (h b bs rfl).resolve_left (by omega)
      subst hb
      rfl

/-- An argument that is not has a C string that begins with its first byte. -/
theorem terminated_of_not_refusable {limit : Nat} {arg : SqlArg} (h : ¬ Refusable limit arg) :
    ∃ b l hl, terminated limit arg = some ⟨b :: l, hl⟩ := by
  simp only [Refusable, not_forall, not_or] at h
  obtain ⟨b, bs, rfl, hlen, hb⟩ := h
  refine ⟨b, bs.takeWhile (· ≠ 0), ?_, ?_⟩
  · have := (CStr.ofBytes (b :: bs)).2
    simpa [CStr.ofBytes, hb] using this
  · rw [terminated_eq (by simp) (by omega)]
    simp [CStr.ofBytes, hb]

/-- The C string of an argument with a NUL byte is not the argument. -/
theorem ne_of_nul {arg : SqlArg} (h : ¬ NoNul arg) (s : CStr) : some s.1 ≠ arg := by
  intro e
  refine h fun bs hbs => ?_
  rw [hbs] at e
  cases e
  exact s.2

/-! ### Refused, or exact -/

section refused

variable {package : PackageString} {hs : List Finished} {T T' : Tab} {d d' : Flow} {t : Nat}
variable {courses : List (Conc.Item Course Ev)}

/-- A call that leaves what can be observed, and the failure that follows. -/
theorem refused_call (h : FromLoad (fun _ => True) hs T d) {α : Type} {c : TableCall}
    {k : c.Ret → Session α} {x r : α}
    (hc : ∀ W W' b b' F y, W.Ok → Effect F c W b y W' b' → W'.obs = W.obs ∧ k y = pure x)
    (he : exec tableIface t (table c >>= k) courses T d = some (r, T', d')) :
    r = x ∧ T'.seen.topics = T.seen.topics ∧ T'.seen.params = T.seen.params := by
  obtain ⟨hi, W, hW, hT⟩ := h.world
  obtain ⟨d₁, y, T₁, d₂, W₁, b₁, rest, -, -, hT₁, -, -, heff, -, hret⟩ :=
    session_call hi hT hW (allowedAll_any courses) he
  obtain ⟨hobs, hk⟩ := hc W W₁ _ b₁ _ y hW heff
  rw [hk] at hret
  obtain ⟨rfl, rfl, -⟩ := exec_ret hret
  have hseen : T'.seen = T.seen := by rw [hT₁.seen, hT.seen, hobs]
  exact ⟨rfl, by rw [hseen], by rw [hseen]⟩

/-- A program that has returned leaves the table. -/
theorem refused_pure {α : Type} {x r : α}
    (he : exec tableIface t (pure x : Session α) courses T d = some (r, T', d')) :
    r = x ∧ T'.seen.topics = T.seen.topics ∧ T'.seen.params = T.seen.params := by
  obtain ⟨rfl, rfl, -⟩ := exec_ret he
  exact ⟨rfl, rfl, rfl⟩

theorem connect_exact {brokers : SqlArg} (hw : (Command.connect brokers).Whole) :
    Exact package (.connect brokers) := by
  intro hs T d h t courses r T' d' he
  simp only [commandProg, kafkaConnect] at he ⊢
  cases hterm : terminated maxSetupVarLen brokers with
  | none =>
      rw [hterm] at he
      exact Or.inl (refused_pure he)
  | some b =>
      rw [hterm] at he
      rcases hw with href | hnul
      · refine Or.inl (refused_call h (fun W W' b' b'' F y hW heff => ?_) he)
        have hne : y ≠ .ok () := by
          intro hy
          obtain ⟨bs, hbs, hz, -⟩ := heff.2.1 hy
          rw [← hbs, zstr_of_refusable href hterm] at hz
          cases hz
        refine ⟨(heff.2.2.1 hne).1.obs, ?_⟩
        cases y with
        | error text => rfl
        | ok u => exact absurd rfl hne
      · obtain ⟨bs, rfl, -, -, rfl⟩ := terminated_some hterm
        refine Or.inr (.op (congrArg some (val_of_noNul hnul)) fun y => ?_)
        split <;> exact .pure

theorem connectionParam_exact {name value : SqlArg} (hw : (Command.connectionParam name value).Whole) :
    Exact package (.connectionParam name value) := by
  intro hs T d h t courses r T' d' he
  simp only [commandProg, kafkaConnectionParam] at he ⊢
  cases hterm : terminated maxSetupVarLen name with
  | none =>
      rw [hterm] at he
      exact Or.inl (refused_pure he)
  | some n =>
      rw [hterm] at he
      cases value with
      | none =>
          rcases hw with href | ⟨hnul, -⟩ | ⟨bs, hbs, -⟩
          · refine Or.inl (refused_call h (fun W W' b b' F y hW heff => ?_) he)
            have hz := zstr_of_refusable href hterm
            obtain ⟨-, ⟨n', -, hz', -⟩ | ⟨-, rfl, rfl⟩⟩ := heff
            · rw [hz] at hz'
              cases hz'
            · exact ⟨rfl, rfl⟩
          · obtain ⟨bs, rfl, -, -, rfl⟩ := terminated_some hterm
            refine Or.inr (.op (congrArg some (val_of_noNul hnul)) fun y => ?_)
            split <;> exact .pure
          · cases hbs
      | some bs =>
          by_cases hlen : maxSetupVarLen < bs.length
          · simp only [if_pos hlen] at he
            exact Or.inl (refused_pure he)
          · simp only [if_neg hlen] at he ⊢
            rw [localCopy_eq (Nat.not_lt.mp hlen)] at he ⊢
            rcases hw with href | ⟨hname, hvalue⟩ | ⟨bs', hbs, hlen'⟩
            · refine Or.inl (refused_call h (fun W W' b b' F y hW heff => ?_) he)
              have hne : y ≠ .ok () := by
                intro hy
                obtain ⟨n', v, hn, -, hz, -⟩ := heff.2.1 hy
                rw [← hn, zstr_of_refusable href hterm] at hz
                cases hz
              refine ⟨(heff.2.2 hne).1.obs, ?_⟩
              cases y with
              | error text => rfl
              | ok u => exact absurd rfl hne
            · obtain ⟨bs', rfl, -, -, rfl⟩ := terminated_some hterm
              refine Or.inr (.op ⟨congrArg some (val_of_noNul hname),
                congrArg some (val_of_noNul hvalue)⟩ fun y => ?_)
              split <;> exact .pure
            · cases hbs
              exact absurd hlen' hlen

theorem disconnect_exact {topic : Option SqlArg} (hw : (Command.disconnect topic).Whole) :
    Exact package (.disconnect topic) := by
  intro hs T d h t courses r T' d' he
  cases topic with
  | none => exact Or.inr (.op trivial fun _ => .pure)
  | some topic =>
      simp only [commandProg, kafkaDisconnect] at he ⊢
      cases hterm : terminated maxTopicLen topic with
      | none =>
          rw [hterm] at he
          exact Or.inl (refused_pure he)
      | some n =>
          rw [hterm] at he
          rcases hw with href | hnul
          · refine Or.inl (refused_call h (fun W W' b b' F y hW heff => ?_) he)
            have hz := zstr_of_refusable href hterm
            obtain ⟨-, ⟨n', -, hz', -⟩ | ⟨-, rfl, rfl⟩⟩ := heff
            · rw [hz] at hz'
              cases hz'
            · exact ⟨rfl, rfl⟩
          · obtain ⟨bs, rfl, -, -, rfl⟩ := terminated_some hterm
            refine Or.inr (.op (congrArg some (val_of_noNul hnul)) fun y => ?_)
            split <;> exact .pure

theorem sendMessage_names {topic : CStr} {data : List UInt8} :
    (sendMessage topic data).Straight (Command.send (some topic.1) (some data)).Names :=
  .op ⟨rfl, rfl⟩ fun sent => by split <;> exact .pure

theorem kafkaSend_names {bs data : List UInt8} {s : CStr}
    (hterm : terminated maxTopicLen (some bs) = some s) (hs : s.1 = bs) :
    (kafkaSend (some bs) (some data)).Straight (Command.send (some bs) (some data)).Names := by
  subst hs
  simp only [kafkaSend, hterm]
  refine .op rfl fun found => ?_
  split
  · exact sendMessage_names
  · refine .op rfl fun created => ?_
    split
    · exact .pure
    · exact sendMessage_names

theorem send_exact {topic msg : SqlArg} (hw : (Command.send topic msg).Whole) :
    Exact package (.send topic msg) := by
  intro hs T d h t courses r T' d' he
  simp only [commandProg] at he ⊢
  cases hterm : terminated maxTopicLen topic with
  | none =>
      simp only [kafkaSend, hterm] at he
      exact Or.inl (refused_pure he)
  | some n =>
      cases msg with
      | none =>
          simp only [kafkaSend, hterm] at he
          exact Or.inl (refused_pure he)
      | some data =>
          rcases hw with hmsg | href | hnul
          · cases hmsg
          · have hz := zstr_of_refusable href hterm
            simp only [kafkaSend, hterm] at he
            obtain ⟨hi, W, hW, hT⟩ := h.world
            -- no topic has that name, and none is created
            obtain ⟨d₁, found, T₁, d₂, W₁, b₁, rest, -, hi₁, hT₁, hW₁, -, ⟨rfl, -, hfound⟩, -, he⟩ :=
              session_call hi hT hW (allowedAll_any courses) he
            have hnone : (some n).bind W₁.findTopic = none := hW₁.findTopic_zstr hz
            rw [hnone] at hfound
            subst hfound
            obtain ⟨d₃, x, T₂, d₄, W₂, b₂, rest', -, -, hT₂, -, -, ⟨-, hcr, -⟩, -, he⟩ :=
              session_call hi₁ hT₁ hW₁ (allowedAll_any rest) he
            have hx : x ≠ 0 := by
              intro hx
              obtain ⟨n', hn', ⟨⟨y, hy⟩, -⟩ | ⟨-, -, hz', -⟩⟩ := hcr.ok hx
              · cases hn'
                rw [hW₁.findTopic_zstr hz] at hy
                cases hy
              · rw [← hn', hz] at hz'
                cases hz'
            rw [if_pos hx] at he
            obtain ⟨rfl, rfl, -⟩ := exec_ret he
            have hseen : T'.seen = T.seen := by rw [hT₂.seen, hT.seen, (hcr.fail hx).2.1.obs]
            exact Or.inl ⟨rfl, by rw [hseen], by rw [hseen]⟩
          · obtain ⟨bs, rfl, -, -, rfl⟩ := terminated_some hterm
            exact Or.inr (kafkaSend_names hterm (val_of_noNul hnul))

theorem stats_exact {topic : SqlArg} (hw : (Command.stats topic).Whole) :
    Exact package (.stats topic) := by
  intro hs T d h t courses r T' d' he
  simp only [commandProg, kafkaStats] at he ⊢
  -- what is not a name is looked up as the empty one
  have hnone : zstr (some ((terminated maxTopicLen topic).getD .empty)) = true →
      r = statsLine 0 0 ∧ T'.seen.topics = T.seen.topics ∧ T'.seen.params = T.seen.params := by
    intro hz
    refine refused_call h (fun W W' b b' F y hW heff => ?_) he
    obtain ⟨rfl, -, -, -, hy⟩ := heff
    have hf : (some ((terminated maxTopicLen topic).getD .empty)).bind W'.findTopic = none :=
      hW.findTopic_zstr hz
    rw [hf] at hy
    exact ⟨rfl, by rw [hy]⟩
  cases hterm : terminated maxTopicLen topic with
  | none => exact Or.inl (hnone (by rw [hterm]; rfl))
  | some n =>
      rcases hw with href | hnul
      · exact Or.inl (hnone (by rw [hterm]; exact zstr_of_refusable href hterm))
      · obtain ⟨bs, rfl, -, -, rfl⟩ := terminated_some hterm
        exact Or.inr (.op (congrArg some (val_of_noNul hnul)) fun y => .pure)

/-- Where every argument is whole, a function refuses or is exact. -/
theorem exact_of_whole {c : Command} (hw : c.Whole) : Exact package c := by
  cases c with
  | connect brokers => exact connect_exact hw
  | connectionParam name value => exact connectionParam_exact hw
  | disconnect topic => exact disconnect_exact hw
  | send topic msg => exact send_exact hw
  | stats topic => exact stats_exact hw
  | info => exact fun _ _ _ _ _ _ _ _ _ _ => Or.inr (.op trivial fun _ => .op trivial fun _ => .pure)

end refused

/-! ### A NUL byte inside -/

section inside

variable {package : PackageString} (b : UInt8) (l : List UInt8) (hl : (0 : UInt8) ∉ b :: l)

/-- A connect from the start. -/
theorem connects : ∃ T d, exec iface 0 (tableProg (.connect (some ⟨b :: l, hl⟩))) (quietly 20)
    Tab.init Flow.init = some (.ok (), T, d) := by
  have hrun : (exec iface 0 (tableProg (.connect (some ⟨b :: l, hl⟩))) (quietly 20)
      Tab.init Flow.init).map (·.1) = some (.ok ()) := by
    rfl
  obtain ⟨⟨r, T, d⟩, he, rfl⟩ := Option.map_eq_some_iff.mp hrun
  exact ⟨T, d, he⟩

/-- A parameter that is set from the start. -/
theorem sets (v : CStr) : ∃ T d,
    exec iface 0 (tableProg (.setParam (some ⟨b :: l, hl⟩) (some v))) (quietly 11)
      Tab.init Flow.init = some (.ok (), T, d) ∧
    T.seen = ⟨false, none, [(⟨b :: l, hl⟩, v)], []⟩ := by
  have hrun : (exec iface 0 (tableProg (.setParam (some ⟨b :: l, hl⟩) (some v))) (quietly 11)
      Tab.init Flow.init).map (fun x => (x.1, x.2.1.seen)) =
        some (.ok (), ⟨false, none, [(⟨b :: l, hl⟩, v)], []⟩) := by
    rfl
  obtain ⟨⟨r, T, d⟩, he, hx⟩ := Option.map_eq_some_iff.mp hrun
  simp only [Prod.mk.injEq] at hx
  obtain ⟨rfl, hseen⟩ := hx
  exact ⟨T, d, he, hseen⟩

/-- A topic that is created where there is a connection, and none yet. -/
theorem creates : ∃ T₀ d₀ T d T' d',
    exec iface 0 (tableProg (.connect (some (.lit "b")))) (quietly 20) Tab.init Flow.init =
      some (.ok (), T₀, d₀) ∧ T₀.seen.topics = [] ∧
    exec iface 0 (tableProg (.exists (some ⟨b :: l, hl⟩))) (quietly 3) T₀ d₀ = some (false, T, d) ∧
    exec iface 0 (tableProg (.create (some ⟨b :: l, hl⟩))) (quietly 15) T d = some (0, T', d') ∧
    T'.seen.topics = [(0, some ⟨some ⟨1, ⟨b :: l, hl⟩⟩, some 0, some 0⟩)] ∧ d'.accepted = [] := by
  have hrun : ((exec iface 0 (tableProg (.connect (some (.lit "b")))) (quietly 20)
      Tab.init Flow.init).bind fun x =>
        (exec iface 0 (tableProg (.exists (some ⟨b :: l, hl⟩))) (quietly 3) x.2.1 x.2.2).bind fun y =>
          (exec iface 0 (tableProg (.create (some ⟨b :: l, hl⟩))) (quietly 15) y.2.1 y.2.2).map
            fun z => (x.1, x.2.1.seen.topics, y.1, z.1, z.2.1.seen.topics, z.2.2.accepted)) =
      some (.ok (), [], false, 0, [(0, some ⟨some ⟨1, ⟨b :: l, hl⟩⟩, some 0, some 0⟩)], []) := by
    rfl
  obtain ⟨⟨r₀, T₀, d₀⟩, h₀, hrun⟩ := Option.bind_eq_some_iff.mp hrun
  obtain ⟨⟨r, T, d⟩, h, hrun⟩ := Option.bind_eq_some_iff.mp hrun
  obtain ⟨⟨r', T', d'⟩, h', hx⟩ := Option.map_eq_some_iff.mp hrun
  simp only [Prod.mk.injEq] at hx
  obtain ⟨rfl, htopics₀, rfl, rfl, htopics, hacc⟩ := hx
  exact ⟨T₀, d₀, T, d, T', d', h₀, htopics₀, h, h', htopics, hacc⟩

variable {b l hl}

/-- An exact function of one call that is not refused names its arguments in it. -/
theorem Exact.names {c : Command} (h : Exact package c) {x : TableCall} {k : x.Ret → Session c.Ret}
    (hprog : commandProg package c = table x >>= k) {hs : List Finished} {T T' : Tab} {d d' : Flow}
    (hrun : FromLoad (fun _ => True) hs T d) {t : Nat} {course : Course} {y : x.Ret} {r : c.Ret}
    (he : exec iface t (tableProg x) course T d = some (y, T', d')) (hk : k y = pure r)
    (hr : ¬ Refused c r) : c.Names x := by
  have hend : exec tableIface t (commandProg package c) [.ans course] T d = some (r, T', d') := by
    rw [hprog, exec_cons he, hk]
    exact exec_nil _ _ _ _
  have hstraight := (h hs T d hrun t _ r T' d' hend).resolve_left fun h => hr h.1
  rw [hprog] at hstraight
  exact hstraight.1

theorem SqlInt.ne_failed : (⟨0, false⟩ : SqlInt) ≠ .failed := by decide

theorem connect_whole {brokers : SqlArg} (h : Exact package (.connect brokers)) :
    (Command.connect brokers).Whole := by
  by_contra hbad
  obtain ⟨href, hnul⟩ := not_or.mp hbad
  obtain ⟨b, l, hl, hterm⟩ := terminated_of_not_refusable href
  obtain ⟨T, d, he⟩ := connects b l hl
  have hprog : ∃ k, commandProg package (.connect brokers) =
      table (.connect (some ⟨b :: l, hl⟩)) >>= k ∧ k (.ok ()) = pure ⟨0, false⟩ := by
    simp only [commandProg, kafkaConnect, hterm]
    exact ⟨_, rfl, rfl⟩
  obtain ⟨k, hprog, hk⟩ := hprog
  exact ne_of_nul hnul _ (h.names hprog .nil he hk SqlInt.ne_failed)

/-- A stored parameter can be forgotten while there is no producer. -/
theorem TableState.unsets (s : TableState) (t : Nat) {n v : CStr} (hz : zstr (some n) = false)
    (hconn : s.seen.connected = false) (hthere : (n, v) ∈ s.seen.params) :
    ∃ course T d, exec iface t (tableProg (.unsetParam (some n))) course s.sh s.fr =
      some ((0 : Int), T, d) := by
  obtain ⟨course, r, T, d, he⟩ :=
    s.returns t (c := .unsetParam (some n)) (straight_quick (unsetParam_straight (some n)))
  obtain ⟨W, hW, hT⟩ := s.world
  rw [TableState.seen, hT.seen] at hconn hthere
  obtain ⟨-, W', b', -, -, -, -, -, ⟨n', hn, -, hu⟩ | ⟨hz', -⟩⟩ :=
    exec_effect s.inv hT hW (allowed_any course) he
  · cases hn
    by_cases hr : r = 0
    · exact ⟨course, T, d, hr ▸ he⟩
    · rcases (hu.fail hr).2.2 with hc | hno
      · obtain ⟨conn, hc⟩ := Option.isSome_iff_exists.mp hc
        simp [Obs.seen, World.obs, hc] at hconn
      · exact absurd rfl (hno _ hthere)
  · rw [hz] at hz'
    cases hz'

/-- A topic that is there can be dismissed. -/
theorem TableState.dismisses (s : TableState) (t : Nat) {topic : CStr}
    (hz : zstr (some topic) = false) (hthere : ∃ e ∈ s.seen.topics, Named topic e) :
    ∃ course T d, exec iface t (tableProg (.dismiss (some topic))) course s.sh s.fr =
      some ((0 : Int), T, d) := by
  obtain ⟨course, r, T, d, he⟩ :=
    s.returns t (c := .dismiss (some topic)) (dismiss_straight (some topic))
  obtain ⟨W, hW, hT⟩ := s.world
  rw [TableState.seen, hT.seen] at hthere
  obtain ⟨x, hf⟩ := World.findTopic_of_named hthere
  obtain ⟨-, W', b', -, -, -, -, -, ⟨n', hn, -, hd⟩ | ⟨hz', -⟩⟩ :=
    exec_effect s.inv hT hW (allowed_any course) he
  · cases hn
    by_cases hr : r = 0
    · exact ⟨course, T, d, hr ▸ he⟩
    · rw [(hd.fail hr).2.2] at hf
      cases hf
  · rw [hz] at hz'
    cases hz'

theorem connectionParam_whole {name value : SqlArg} (h : Exact package (.connectionParam name value)) :
    (Command.connectionParam name value).Whole := by
  by_contra hbad
  obtain ⟨href, hbad⟩ := not_or.mp hbad
  obtain ⟨hnul, hlen⟩ := not_or.mp hbad
  obtain ⟨b, l, hl, hterm⟩ := terminated_of_not_refusable href
  cases value with
  | none =>
      -- the parameter is there, and is forgotten
      obtain ⟨T, d, he, hseen⟩ := sets b l hl .empty
      have hrun := Runs.nil.call (quietly 11) (allowed_any _) he
      obtain ⟨course, T', d', he'⟩ := (FromLoad.state hrun).unsets 0 (n := ⟨b :: l, hl⟩)
        (v := .empty) rfl (congrArg Seen.connected hseen) (by
          rw [TableState.seen, show (FromLoad.state hrun).sh = T from rfl, hseen]
          exact List.mem_singleton_self _)
      have hprog : ∃ k, commandProg package (.connectionParam name none) =
          table (.unsetParam (some ⟨b :: l, hl⟩)) >>= k ∧ k 0 = pure ⟨0, false⟩ := by
        simp only [commandProg, kafkaConnectionParam, hterm]
        exact ⟨_, rfl, rfl⟩
      obtain ⟨k, hprog, hk⟩ := hprog
      have hname := h.names hprog hrun he' hk SqlInt.ne_failed
      refine hnul ⟨?_, fun bs e => by cases e⟩
      by_contra hno
      exact ne_of_nul hno _ hname
  | some bs =>
      obtain ⟨T, d, he, -⟩ := sets b l hl (CStr.ofBytes bs)
      have hshort : ¬ maxSetupVarLen < bs.length := fun hlt => hlen ⟨bs, rfl, hlt⟩
      have hprog : ∃ k, commandProg package (.connectionParam name (some bs)) =
          table (.setParam (some ⟨b :: l, hl⟩) (some (CStr.ofBytes bs))) >>= k ∧
            k (.ok ()) = pure ⟨0, false⟩ := by
        simp only [commandProg, kafkaConnectionParam, hterm, if_neg hshort]
        rw [localCopy_eq (Nat.not_lt.mp hshort)]
        exact ⟨_, rfl, rfl⟩
      obtain ⟨k, hprog, hk⟩ := hprog
      obtain ⟨hname, hvalue⟩ := h.names hprog .nil he hk SqlInt.ne_failed
      refine hnul ⟨?_, ?_⟩
      · by_contra hno
        exact ne_of_nul hno _ hname
      · by_contra hno
        exact ne_of_nul hno _ hvalue

variable (b l hl) in
/-- A run that has created a topic, and accepted nothing yet. -/
theorem created_run : ∃ hs T d, FromLoad (fun _ => True) hs T d ∧
    (∃ e ∈ T.seen.topics, Named ⟨b :: l, hl⟩ e) ∧ d.accepted = [] := by
  obtain ⟨T₀, d₀, T, d, T', d', h₀, -, h₁, h₂, htopics, hacc⟩ := creates b l hl
  refine ⟨_, T', d', ((Runs.nil.call _ (allowed_any _) h₀).call _ (allowed_any _) h₁).call _
    (allowed_any _) h₂, ?_, hacc⟩
  rw [htopics]
  exact ⟨_, List.mem_singleton_self _, _, _, rfl, rfl, rfl⟩

theorem disconnect_whole {topic : Option SqlArg} (h : Exact package (.disconnect topic)) :
    (Command.disconnect topic).Whole := by
  cases topic with
  | none => trivial
  | some topic =>
      by_contra hbad
      obtain ⟨href, hnul⟩ := not_or.mp hbad
      obtain ⟨b, l, hl, hterm⟩ := terminated_of_not_refusable href
      obtain ⟨hs, T, d, hrun, hthere, -⟩ := created_run b l hl
      obtain ⟨course, T', d', he⟩ := (FromLoad.state hrun).dismisses 0 rfl hthere
      have hprog : ∃ k, commandProg package (.disconnect (some topic)) =
          table (.dismiss (some ⟨b :: l, hl⟩)) >>= k ∧ k 0 = pure ⟨0, false⟩ := by
        simp only [commandProg, kafkaDisconnect, hterm]
        exact ⟨_, rfl, rfl⟩
      obtain ⟨k, hprog, hk⟩ := hprog
      exact ne_of_nul hnul _ (h.names hprog hrun he hk SqlInt.ne_failed)

/-- `kafka_table_send` leaves what can be seen. -/
theorem TableState.send_seen (s : TableState) {t : Nat} {topic : Option CStr} {data : List UInt8}
    {course : Course} {r : Int} {T : Tab} {d : Flow}
    (he : exec iface t (tableProg (.send topic data)) course s.sh s.fr = some (r, T, d)) :
    T.seen = s.seen := by
  obtain ⟨W, hW, hT⟩ := s.world
  obtain ⟨-, W', b', hT', -, -, -, rfl, -⟩ := exec_effect s.inv hT hW (allowed_any course) he
  exact hT'.seen.trans hT.seen.symm

theorem send_whole {topic msg : SqlArg} (h : Exact package (.send topic msg)) :
    (Command.send topic msg).Whole := by
  by_contra hbad
  obtain ⟨hmsg, hbad⟩ := not_or.mp hbad
  obtain ⟨href, hnul⟩ := not_or.mp hbad
  obtain ⟨data, rfl⟩ := Option.ne_none_iff_exists'.mp hmsg
  obtain ⟨b, l, hl, hterm⟩ := terminated_of_not_refusable href
  obtain ⟨T₀, d₀, T, d, T', d', h₀, hempty, h₁, h₂, htopics, -⟩ := creates b l hl
  have hrun₀ := Runs.nil.call (quietly 20) (allowed_any _) h₀
  have hrun := (hrun₀.call _ (allowed_any _) h₁).call _ (allowed_any _) h₂
  have hrefused : Outcome.Possible data (.error 0) := fun e => by cases e
  have hsend := (FromLoad.state hrun).send_returns 0 (some ⟨b :: l, hl⟩) (fun _ => hrefused)
  obtain ⟨course, r, T₂, d₂, -, h₃⟩ := hsend ⟨0, by decide⟩
  have hseen := (FromLoad.state hrun).send_seen h₃
  -- whatever comes of the message, the topic is there
  have hend : ∃ x, exec tableIface 0 (commandProg package (.send topic (some data)))
      [.ans (quietly 3), .ans (quietly 15), .ans course] T₀ d₀ = some (x, T₂, d₂) := by
    simp only [commandProg, kafkaSend, hterm]
    rw [exec_cons h₁, if_neg Bool.false_ne_true, exec_cons h₂, if_neg (not_not_intro rfl),
      sendMessage, exec_cons h₃]
    by_cases hr : r < 0
    · exact ⟨_, by rw [if_pos hr]; exact exec_nil _ _ _ _⟩
    · exact ⟨_, by rw [if_neg hr]; exact exec_nil _ _ _ _⟩
  obtain ⟨x, hend⟩ := hend
  rcases h _ T₀ d₀ hrun₀ 0 _ x T₂ d₂ hend with ⟨-, hsame, -⟩ | hstraight
  · rw [hseen, TableState.seen, show (FromLoad.state hrun).sh = T' from rfl, htopics, hempty] at hsame
    cases hsame
  · simp only [commandProg, kafkaSend, hterm] at hstraight
    exact ne_of_nul hnul _ hstraight.1

/-- A callback that runs may count its report. -/
theorem delivers_running {T : Tab} {d : Flow} {i : Nat} {m : Message} {u : Thread} {err : RespErr}
    (hi : d.inflight[i]? = some ⟨m, .running u err⟩) :
    ∃ d', EnvSteps tableIface T d d' ∧ ∃ q ∈ d'.served, q.msg = m := by
  have hact : Ev.act (.cbCount i 0) T d =
      some { d.count m err 0 with inflight := d.inflight.set i ⟨m, .counted u⟩ } := by
    simp only [Ev.act, hi]
  refine ⟨_, .step (.cbCount i 0) hact (.refl _), ⟨m, err, 0⟩, ?_, rfl⟩
  exact List.mem_append_right _ (List.mem_singleton_self _)

/-- **Every accepted message may be reported**, if it is not yet. -/
theorem TableState.delivers (s : TableState) {m : Message} (hm : m ∈ s.fr.accepted) :
    ∃ d, EnvSteps tableIface s.sh s.fr d ∧ ∃ q ∈ d.served, q.msg = m := by
  rcases List.mem_append.mp (s.inv.conserved.mem_iff.mp hm) with hm | hm
  · obtain ⟨q, hq, rfl⟩ := List.mem_map.mp hm
    exact ⟨s.fr, .refl _, q, hq, rfl⟩
  · obtain ⟨⟨m', stage⟩, hq, rfl⟩ := List.mem_map.mp hm
    obtain ⟨hq, hun⟩ := List.mem_filter.mp hq
    obtain ⟨i, hi, hget⟩ := List.mem_iff_getElem.mp hq
    have hi' : s.fr.inflight[i]? = some ⟨m', stage⟩ := by rw [List.getElem?_eq_getElem hi, hget]
    cases stage with
    | queued =>
        have hact : Ev.act (.cbEnter i (.poll 0) noError) s.sh s.fr = some
            { s.fr with inflight := s.fr.inflight.set i ⟨m', .running (.poll 0) noError⟩ } := by
          simp only [Ev.act, hi']
        have hrunning : (s.fr.inflight.set i ⟨m', .running (.poll 0) noError⟩)[i]? =
            some ⟨m', .running (.poll 0) noError⟩ := List.getElem?_set_self hi
        obtain ⟨d, hsteps, hserved⟩ := @delivers_running s.sh
          { s.fr with inflight := s.fr.inflight.set i ⟨m', .running (.poll 0) noError⟩ }
          i m' (.poll 0) noError hrunning
        exact ⟨d, .step (.cbEnter i (.poll 0) noError) hact hsteps, hserved⟩
    | running u err => exact delivers_running hi'
    | counted u => cases hun

theorem Runs.envSteps {allows : Ans → Prop} {hs : List Finished} {T T₁ : Tab} {d d₁ d₂ : Flow}
    (h : Runs allows T d hs T₁ d₁) (hsteps : EnvSteps tableIface T₁ d₁ d₂) :
    Runs allows T d hs T₁ d₂ := by
  induction hsteps with
  | refl => exact h
  | step e he _ ih => exact ih (.env e h he)

/-- The counters of a record whose one message was reported. -/
theorem counters_ne_zero {q : Served} {p : Nat} (hq : q.msg.tt = p) :
    statsLine (UInt32.ofNat (successes p [q])) (UInt32.ofNat (failures p [q])) ≠ statsLine 0 0 := by
  have hone : statsLine 1 0 ≠ statsLine 0 0 ∧ statsLine 0 1 ≠ statsLine 0 0 := by decide +kernel
  by_cases he : q.err = noError
  · have hs : successes p [q] = 1 ∧ failures p [q] = 0 := by simp [successes, failures, hq, he]
    rw [hs.1, hs.2]
    exact hone.1
  · have hs : successes p [q] = 0 ∧ failures p [q] = 1 := by simp [successes, failures, hq, he]
    rw [hs.1, hs.2]
    exact hone.2

theorem eq_singleton {α : Type} {a : α} {l : List α} (ha : a ∈ l) (hl : l.length ≤ 1) : l = [a] := by
  cases l with
  | nil => cases ha
  | cons b l =>
      obtain rfl : l = [] := List.eq_nil_of_length_eq_zero (by simpa using hl)
      rw [List.mem_singleton.mp ha]

theorem stats_whole {topic : SqlArg} (h : Exact package (.stats topic)) :
    (Command.stats topic).Whole := by
  by_contra hbad
  obtain ⟨href, hnul⟩ := not_or.mp hbad
  obtain ⟨b, l, hl, hterm⟩ := terminated_of_not_refusable href
  obtain ⟨hs, T, d, hrun, hthere, hacc⟩ := created_run b l hl
  -- one message is accepted, and reported
  have hshort : ([] : List UInt8).length ≤ messageMaxBytes := by decide
  obtain ⟨course, d₁, he⟩ := (FromLoad.state hrun).send_accepts 0 hthere hshort
  obtain ⟨hi, W, hW, hT⟩ := FromLoad.world hrun
  obtain ⟨hi₁, W₁, b₁, -, -, hb₁, -, rfl, ⟨-, -, i, reg, id, hf, rfl⟩ | ⟨hr, -⟩⟩ :=
    exec_effect hi hT hW (allowed_any course) he
  swap
  · cases hr
  have hrun₁ := hrun.call course (allowed_any _) he
  have hacc₁ : d₁.accepted = [⟨id, reg.rkt, none, [], reg.tt⟩] := by
    rw [hb₁.acc]
    show d.accepted ++ _ = _
    rw [hacc, List.nil_append]
  obtain ⟨d₂, hsteps, q, hq, hmsg⟩ := (FromLoad.state hrun₁).delivers
    (m := ⟨id, reg.rkt, none, [], reg.tt⟩) (by
      rw [show (FromLoad.state hrun₁).fr = d₁ from rfl, hacc₁]; exact List.mem_singleton_self _)
  have hrun₂ := hrun₁.envSteps hsteps
  -- the counters of that record are read
  obtain ⟨course', r, T', d', he'⟩ := (FromLoad.state hrun₂).returns 0
    (c := .getStats (some ⟨b :: l, hl⟩)) (straight_quick (getStats_straight (some ⟨b :: l, hl⟩)))
  obtain ⟨hi', W', b', -, -, hb', -, rfl, hacc', -, hlo, hr⟩ :=
    exec_effect (FromLoad.world hrun₂).1 hT hW (allowed_any course') he'
  rw [hf] at hr
  obtain ⟨s₁, hs₁, hs₁', hr⟩ := hr
  have haccepted : d'.accepted = [⟨id, reg.rkt, none, [], reg.tt⟩] := by
    rw [hb'.acc, hacc', ← hacc₁]
    exact accepted_envSteps hsteps
  have hone : d'.served.length ≤ 1 := by
    have hlen := hi'.conserved.length_eq
    rw [haccepted, List.length_append, List.length_map, List.length_singleton] at hlen
    omega
  have hlo' : b'.lo = [q] := by
    refine eq_singleton (hlo.subset hq) ?_
    exact hb'.lo.length_le.trans hone
  have hs₁q : s₁ = [q] := by
    refine eq_singleton (hs₁.subset hq) ?_
    rw [hlo'] at hs₁'
    exact hs₁'.length_le
  have hprog : commandProg package (.stats topic) =
      table (.getStats (some ⟨b :: l, hl⟩)) >>= fun stats => pure (statsLine stats.1 stats.2) := by
    rw [commandProg, kafkaStats, hterm]
    rfl
  refine ne_of_nul hnul _ (h.names hprog hrun₂ he' rfl ?_)
  rw [hr, hlo', hs₁q]
  exact counters_ne_zero (congrArg Message.tt hmsg)

/-- A function that refuses or is exact, everywhere, has whole arguments. -/
theorem whole_of_exact {c : Command} (h : Exact package c) : c.Whole := by
  cases c with
  | connect brokers => exact connect_whole h
  | connectionParam name value => exact connectionParam_whole h
  | disconnect topic => exact disconnect_whole h
  | send topic msg => exact send_whole h
  | stats topic => exact stats_whole h
  | info => trivial

end inside

/-! ### The buffers -/

/-- What is true of the arguments of the SQL functions. -/
structure ArgumentsExact (package : PackageString) : Prop where
  /-- A function refuses or is exact, everywhere, exactly when its arguments are whole. -/
  whole : ∀ c, Exact package c ↔ c.Whole
  /-- An argument that fits is copied within its buffer, whatever that held, which then reads as its
  C string; that is the copy a function takes of it. -/
  copied : ∀ limit (buf : Buffer) (arg : List UInt8), buf.length = limit + 1 → arg.length ≤ limit →
    (∃ b, buf.copyArg arg arg.length = some b ∧ b.length = buf.length ∧
      b.cstr = some (CStr.ofBytes arg)) ∧
    localCopy limit arg = some (CStr.ofBytes arg) ∧
    (arg ≠ [] → terminated limit (some arg) = some (CStr.ofBytes arg))
  /-- A longer one is not copied. -/
  refused : ∀ limit (arg : List UInt8), limit < arg.length → terminated limit (some arg) = none
  /-- Two that are accepted, and have no NUL byte, have different C strings if they differ. -/
  apart : ∀ limit a b s, NoNul a → NoNul b → terminated limit a = some s →
    terminated limit b = some s → a = b

/-- **SQL arguments reach the table unchanged** exactly when no NUL byte is inside them. -/
theorem arguments_exact_iff (package : PackageString) : ArgumentsExact package where
  whole c := ⟨whole_of_exact, exact_of_whole⟩
  copied limit buf arg hbuf hlen := by
    refine ⟨Buffer.copyArg_exact (by omega), localCopy_eq hlen, fun hne => ?_⟩
    exact terminated_eq (fun h => hne (List.eq_nil_of_length_eq_zero h)) hlen
  refused limit arg hlen := if_pos (Or.inr hlen)
  apart limit a b s ha hb hsa hsb := by
    obtain ⟨bs, rfl, -, -, rfl⟩ := terminated_some hsa
    obtain ⟨bs', rfl, -, -, he⟩ := terminated_some hsb
    rw [← val_of_noNul ha, ← val_of_noNul hb, he]

/-! ### Two topics -/

/-- Two sessions send, one to a topic "a", NUL, "b", one to "a", NUL, "c". -/
def nulTopics : List (Conc.Label Course Ev Command) :=
  running 0 (.connect (some (CStr.lit "b").1)) [quietly 20] ++
    running 0 (.send (some [97, 0, 98]) (some [1])) [quietly 3, quietly 15, quietly 11] ++
    running 1 (.send (some [97, 0, 99]) (some [2])) [quietly 5, quietly 11]

/-- **Both messages go to one topic**, of a third name. -/
theorem nulTopics_shared :
    (∃ s, Cfg.run tableIface (commandProg somePackage) nulTopics Sessions.initial = some s ∧
      s.sh.seen.topics = [(0, some ⟨some ⟨1, .lit "a"⟩, some 0, some 0⟩)] ∧
      s.fr.accepted.map (fun m => (m.payload, m.rkt, m.tt)) = [([1], 0, 0), ([2], 0, 0)]) ∧
    ¬ Exact somePackage (.send (some [97, 0, 98]) (some [1])) := by
  refine ⟨?_, fun h => ?_⟩
  · have hrun : (Cfg.run tableIface (commandProg somePackage) nulTopics Sessions.initial).map
        (fun s => (s.sh.seen.topics, s.fr.accepted.map fun m => (m.payload, m.rkt, m.tt))) =
          some ([(0, some ⟨some ⟨1, .lit "a"⟩, some 0, some 0⟩)], [([1], 0, 0), ([2], 0, 0)]) := by
      decide +kernel
    obtain ⟨s, hs, he⟩ := Option.map_eq_some_iff.mp hrun
    obtain ⟨htopics, haccepted⟩ := Prod.mk.inj he
    exact ⟨s, hs, htopics, haccepted⟩
  · rcases send_whole h with hmsg | href | hnul
    · cases hmsg
    · rcases href 97 [0, 98] rfl with hlen | hb
      · exact absurd hlen (by decide)
      · exact absurd hb (by decide)
    · exact hnul _ rfl (by decide)

end TrigEmit
