import TrigEmitKafka.Rules.Readers

/-!
# Rules — the functions of `kafka-table.c`

`Effect` says of each function what it answers and what it does, from one well-formed world to
the next; `tableProg_alone` is that it does.  `sharing` is that the functions run safely among
each other: each takes the table invariant from the lock and gives it back.
-/

namespace TrigEmit

open Conc (Held Iface Item Logic Mode Setting exec)
open Conc.Logic (Safe Sharing Allowed alone shared)
open Store (Heap)

variable {m : Mode Tab View} {b : View} {W : World} {α : Type}

/-! ### Alone -/

section alone

variable {allows : Ans → Prop}

theorem alone_writing {body : K α} {P : α → World → Prop} (hm : At .none W.cells b m)
    (h : ∀ m, At .wr W.cells b m →
      logic.Safe (alone allows) body m fun r m' => Ends b m' (P r)) :
    logic.Safe (alone allows) (writing body) m fun r m' => ∃ W' b', At .none W'.cells b' m' ∧
      W'.Ok ∧ b.Same b' ∧ P r W' := by
  refine Safe.writing hm.held ?_
  rintro m₁ _ _ rfl ⟨rfl, rfl⟩
  refine (h ⟨.wr, m₁.sh, m₁.view⟩ ⟨rfl, hm.sh, hm.view, hm.named⟩).mono ?_
  rintro r m' ⟨W', b', hm', hW', hb, hP⟩
  refine ⟨hm'.held, trivial, Safe.pure ⟨W', b', ⟨rfl, hm'.sh, hm'.view, hm'.named⟩, hW', hb, hP⟩⟩

theorem alone_reading {body : K α} {P : α → View → Prop} (hm : At .none W.cells b m)
    (h : ∀ m, At .rd W.cells b m → logic.Safe (alone allows) body m fun r m' =>
      ∃ b', At .rd W.cells b' m' ∧ P r b') :
    logic.Safe (alone allows) (reading body) m fun r m' => ∃ b', At .none W.cells b' m' ∧
      P r b' := by
  refine Safe.reading hm.held ?_
  rintro m₁ _ _ rfl ⟨rfl, rfl⟩
  refine (h ⟨.rd, m₁.sh, m₁.view⟩ ⟨rfl, hm.sh, hm.view, hm.named⟩).mono ?_
  rintro r m' ⟨b', hm', hP⟩
  exact ⟨hm'.held, Safe.pure ⟨b', ⟨rfl, hm'.sh, hm'.view, hm'.named⟩, hP⟩⟩

/-- A body that only reads the guarded state. -/
theorem alone_reading_pure {body : K α} {P : α → Prop} (hm : At .none W.cells b m)
    (h : ∀ m, At .rd W.cells b m → logic.Safe (alone allows) body m fun r m' => P r ∧ m' = m) :
    logic.Safe (alone allows) (reading body) m fun r m' => At .none W.cells b m' ∧ P r := by
  have hread := alone_reading (P := fun r b' => P r ∧ b' = b) hm fun m₁ hm₁ =>
    (h m₁ hm₁).mono fun r m' ⟨hP, e⟩ => ⟨b, e ▸ hm₁, hP, rfl⟩
  refine hread.mono ?_
  rintro r m' ⟨b', hm', hP, rfl⟩
  exact ⟨hm', hP⟩

/-- What a call answers and does, where `F` says that some call from outside may fail. -/
def Effect (F : Prop) : (c : TableCall) → World → View → c.Ret → World → View → Prop
  | .connected, W, b, r, W', b' =>
      W' = W ∧ b' = b ∧ r = W.obs.producer.isSome
  | .validateParam name value, W, b, r, W', b' =>
      W' = W ∧ b' = b ∧
      (r = .ok () → zstr name = false ∧ value.isSome) ∧
      (r ≠ .ok () → zstr name = true ∨ value = none ∨ F)
  | .setParam name value, W, b, r, W', b' =>
      b.Same b' ∧
      (r = .ok () → ∃ n v, name = some n ∧ value = some v ∧ zstr (some n) = false ∧
        ParamSet W n v r W') ∧
      (r ≠ .ok () → W.Spare W' ∧
        (zstr name = true ∨ value = none ∨ W.conn.isSome ∨ F))
  | .connect brokers, W, b, r, W', b' =>
      b.Same b' ∧
      (r = .ok () → ∃ bs, brokers = some bs ∧ zstr (some bs) = false ∧ Connected W bs r W') ∧
      (r ≠ .ok () → W.Spare W' ∧ (zstr brokers = true ∨ W.conn.isSome ∨ F)) ∧
      (W'.handed = W.handed ∨
        ∃ bs, brokers = some bs ∧ W'.handed = W.handed ++ [applied bs W.params.items])
  | .getBrokers buflen, W, b, r, W', b' =>
      W' = W ∧ b' = b ∧ r = if buflen = 0 then (0, []) else W.obs.brokers buflen
  | .describeParams buflen, W, b, r, W', b' =>
      W' = W ∧ b' = b ∧ r = if buflen = 0 then (0, []) else W.obs.describe buflen
  | .exists topic, W, b, r, W', b' =>
      W' = W ∧ b' = b ∧ r = (topic.bind W.findTopic).isSome
  | .create topic, W, b, r, W', b' =>
      b.Same b' ∧ Created b.acc W topic r W' ∧ (r ≠ 0 → F ∨ W.conn = none ∨ zstr topic = true)
  | .send topic data, W, b, r, W', b' =>
      W' = W ∧
      ((r = cInt data.length ∧ data.length ≤ messageMaxBytes ∧ ∃ i reg id,
          topic.bind W.findTopic = some (i, reg) ∧
          b' = b.sent ⟨id, reg.rkt, none, data, reg.tt⟩) ∨
        (r = -1 ∧ b' = b ∧ (topic.bind W.findTopic = none ∨ F)))
  | .dismiss topic, W, b, r, W', b' =>
      b.Same b' ∧
      ((∃ t, topic = some t ∧ zstr topic = false ∧ Dismissed W t r W') ∨
        (zstr topic = true ∧ r = -1 ∧ W' = W))
  | .dismissAll, W, b, _, W', b' => b.Same b' ∧ AllDismissed W W'
  | .unsetParam name, W, b, r, W', b' =>
      b.Same b' ∧
      ((∃ n, name = some n ∧ zstr name = false ∧ ParamUnset W n r W') ∨
        (zstr name = true ∧ r = -1 ∧ W' = W))
  | .getStats topic, W, b, r, W', b' =>
      W' = W ∧ b'.acc = b.acc ∧ b'.scratch = b.scratch ∧ b.lo <+: b'.lo ∧
      match topic.bind W.findTopic with
      | none          => r = (0, 0)
      | some (_, reg) => ∃ s₁, b.lo <+: s₁ ∧ s₁ <+: b'.lo ∧
          r = (UInt32.ofNat (successes reg.tt s₁), UInt32.ofNat (failures reg.tt b'.lo))

/-- The call may change the stored parameters. -/
def TableCall.Mutates : TableCall → Prop
  | .setParam _ _ => True
  | .unsetParam _ => True
  | _             => False

/-- Any other call leaves the stored parameters. -/
theorem Effect.params {W W' : World} {b b' : View} {F : Prop} {c : TableCall} {r : c.Ret}
    (he : Effect F c W b r W' b') (hc : ¬ c.Mutates) : W'.obs.params = W.obs.params := by
  cases c with
  | setParam name value => exact absurd trivial hc
  | unsetParam name => exact absurd trivial hc
  | connect brokers =>
      by_cases hr : r = .ok ()
      · obtain ⟨bs, -, -, hconn⟩ := he.2.1 hr
        obtain ⟨-, -, p, -, -, ho⟩ := hconn.ok hr
        rw [ho]
      · rw [(he.2.2.1 hr).1.obs]
  | create topic =>
      by_cases hr : r = 0
      · obtain ⟨n, -, ⟨-, ho⟩ | ⟨-, -, -, reg, -, -, ho⟩⟩ := he.2.1.ok hr
        · rw [ho]
        · rw [ho]
      · rw [(he.2.1.fail hr).2.1.obs]
  | dismiss topic =>
      obtain ⟨-, ⟨n, -, -, hd⟩ | ⟨-, -, rfl⟩⟩ := he
      · by_cases hr : r = 0
        · obtain ⟨i, reg, -, ho⟩ := hd.ok hr
          rw [ho]
        · rw [(hd.fail hr).2.1.obs]
      · rfl
  | dismissAll => rw [he.2.1]
  | send topic data => rw [he.1]
  | connected => rw [he.1]
  | validateParam name value => rw [he.1]
  | getBrokers buflen => rw [he.1]
  | describeParams buflen => rw [he.1]
  | «exists» topic => rw [he.1]
  | getStats topic => rw [he.1]

/-- A call run alone ends at a well-formed world, with its effect. -/
abbrev CallEnds (allows : Ans → Prop) (c : TableCall) (W : World) (b : View) (r : c.Ret)
    (m : Mode Tab View) : Prop :=
  ∃ W' b', At .none W'.cells b' m ∧ W'.Ok ∧ Effect (MayFail (alone allows)) c W b r W' b'

theorem kafkaTableValidateParam_alone {name value : Option CStr} (hm : At .none W.cells b m)
    (hW : W.Ok) :
    logic.Safe (alone allows) (kafkaTableValidateParam name value) m
      (CallEnds allows (.validateParam name value) W b) := by
  have hout : Outside (fun T => T = m.sh) b m := ⟨hm.held, rfl, hm.view⟩
  have hJ : Steady (alone allows) (fun T => T = m.sh) := by rintro _ _ rfl h; exact h
  refine (kafkaTableValidateParam_spec hJ hout).mono ?_
  rintro r m' ⟨hok, hf, hm'⟩
  refine ⟨W, b, ⟨hm'.held, hm'.sh ▸ hm.sh, hm'.view, hm.named⟩, hW, rfl, rfl, fun e => ?_, hf⟩
  obtain ⟨n, v, rfl, rfl, hz⟩ := hok e
  exact ⟨hz, rfl⟩

theorem kafkaTableSetParam_alone {name value : Option CStr} (hm : At .none W.cells b m)
    (hW : W.Ok) :
    logic.Safe (alone allows) (kafkaTableSetParam name value) m
      (CallEnds allows (.setParam name value) W b) := by
  refine (kafkaTableValidateParam_alone hm hW).seq ?_
  rintro r m₁ ⟨_, _, hm₁, -, rfl, rfl, hok, hf⟩
  cases r with
  | error text =>
      refine Safe.pure ⟨_, _, hm₁, hW, .refl _, fun e => (by cases e), fun _ => ⟨.refl _, ?_⟩⟩
      exact (hf (by simp)).imp_right (Or.imp_right Or.inr)
  | ok _ =>
      obtain ⟨hz, hv⟩ := hok rfl
      obtain ⟨v, rfl⟩ := Option.isSome_iff_exists.mp hv
      cases name with
      | none => cases hz
      | some n =>
          refine (alone_writing hm₁ fun m₂ hm₂ => kafkaTableSetParamLocked_spec hm₂ hW hz).mono ?_
          rintro r m₃ ⟨W', b', hm₃, hW', hb, hset, -, hfail⟩
          refine ⟨W', b', hm₃, hW', hb, fun e => ⟨n, v, rfl, rfl, hz, hset⟩, fun e => ?_⟩
          exact ⟨hset.fail e, Or.inr (Or.inr (hfail e))⟩

theorem kafkaTableConnect_alone {brokers : Option CStr} (hm : At .none W.cells b m) (hW : W.Ok) :
    logic.Safe (alone allows) (kafkaTableConnect brokers) m
      (CallEnds allows (.connect brokers) W b) := by
  have hrefuse : ∀ text, zstr brokers = true → CallEnds allows (.connect brokers) W b (.error text)
      m := fun text hz =>
    ⟨W, b, hm, hW, .refl b, fun e => (by cases e), fun _ => ⟨.refl W, Or.inl hz⟩,
      Or.inl rfl⟩
  cases brokers with
  | none => exact Safe.pure (hrefuse _ rfl)
  | some bs =>
      simp only [kafkaTableConnect]
      by_cases hz : zstr (some bs) = true
      · rw [if_pos hz]
        exact Safe.pure (hrefuse _ hz)
      · rw [if_neg hz]
        have hz' : zstr (some bs) = false := by simpa using hz
        refine (alone_writing hm fun m₁ hm₁ => kafkaTableConnectLocked_spec hm₁ hW hz').mono ?_
        rintro r m' ⟨W', b', hm', hW', hb, hc, -, hf⟩
        exact ⟨W', b', hm', hW', hb, fun _ => ⟨bs, rfl, hz', hc⟩,
          fun e => ⟨hc.fail e, Or.inr (hf e)⟩, hc.handed.imp_right fun e => ⟨bs, rfl, e⟩⟩

theorem kafkaTableSend_alone {topic : Option CStr} {data : List UInt8}
    (hm : At .none W.cells b m) (hW : W.Ok) :
    logic.Safe (alone allows) (kafkaTableSend topic data) m
      (CallEnds allows (.send topic data) W b) := by
  have hbody := alone_reading (P := fun r b' =>
    (r = true ∧ data.length ≤ messageMaxBytes ∧ ∃ i reg id,
      topic.bind W.findTopic = some (i, reg) ∧
      b' = b.sent ⟨id, reg.rkt, none, data, reg.tt⟩) ∨
    (r = false ∧ b' = b ∧ (topic.bind W.findTopic = none ∨ MayFail (alone allows)))) hm
    fun m₁ hm₁ => (sendBody_spec hm₁ Held.noConfusion).mono fun r m' hr => by
      rcases hr with ⟨rfl, hlen, i, reg, id, hf, hm'⟩ | ⟨rfl, hf, hm'⟩
      · exact ⟨_, hm', Or.inl ⟨rfl, hlen, i, reg, id, hf, rfl⟩⟩
      · exact ⟨_, hm', Or.inr ⟨rfl, rfl, hf⟩⟩
  refine hbody.seq ?_
  rintro r m' ⟨b', hm', ⟨rfl, hlen, i, reg, id, hf, rfl⟩ | ⟨rfl, rfl, hf⟩⟩
  · exact Safe.pure ⟨W, _, hm', hW, rfl, Or.inl ⟨if_pos rfl, hlen, i, reg, id, hf, rfl⟩⟩
  · exact Safe.pure ⟨W, _, hm', hW, rfl, Or.inr ⟨rfl, rfl, hf⟩⟩

theorem kafkaTableDismiss_alone {topic : Option CStr} (hm : At .none W.cells b m) (hW : W.Ok) :
    logic.Safe (alone allows) (kafkaTableDismiss topic) m
      (CallEnds allows (.dismiss topic) W b) := by
  cases topic with
  | none => exact Safe.pure ⟨W, b, hm, hW, .refl b, Or.inr ⟨rfl, rfl, rfl⟩⟩
  | some t =>
      simp only [kafkaTableDismiss]
      by_cases hz : zstr (some t) = true
      · rw [if_pos hz]
        exact Safe.pure ⟨W, b, hm, hW, .refl b, Or.inr ⟨hz, rfl, rfl⟩⟩
      · rw [if_neg hz]
        refine (alone_writing hm fun m₁ hm₁ => dismissLocked_spec hm₁ hW).mono ?_
        rintro r m' ⟨W', b', hm', hW', hb, hd, -⟩
        exact ⟨W', b', hm', hW', hb, Or.inl ⟨t, rfl, by simpa using hz, hd⟩⟩

theorem kafkaTableUnsetParam_alone {name : Option CStr} (hm : At .none W.cells b m) (hW : W.Ok) :
    logic.Safe (alone allows) (kafkaTableUnsetParam name) m
      (CallEnds allows (.unsetParam name) W b) := by
  cases name with
  | none => exact Safe.pure ⟨W, b, hm, hW, .refl b, Or.inr ⟨rfl, rfl, rfl⟩⟩
  | some n =>
      simp only [kafkaTableUnsetParam]
      by_cases hz : zstr (some n) = true
      · rw [if_pos hz]
        exact Safe.pure ⟨W, b, hm, hW, .refl b, Or.inr ⟨hz, rfl, rfl⟩⟩
      · rw [if_neg hz]
        refine (alone_writing hm fun m₁ hm₁ => kafkaTableUnsetParamLocked_spec hm₁ hW).mono ?_
        rintro r m' ⟨W', b', hm', hW', hb, hu, -⟩
        exact ⟨W', b', hm', hW', hb, Or.inl ⟨n, rfl, by simpa using hz, hu⟩⟩

theorem kafkaTopicGetStats_alone {topic : Option CStr} (hm : At .none W.cells b m) (hW : W.Ok) :
    logic.Safe (alone allows) (kafkaTopicGetStats topic) m
      (CallEnds allows (.getStats topic) W b) := by
  refine (alone_reading (P := fun r b' => Effect (MayFail (alone allows)) (.getStats topic) W b r
    W b') hm fun m₁ hm₁ => (getStatsBody_spec hm₁ Held.noConfusion).mono ?_).mono ?_
  · rintro r m' (⟨rfl, hf, hm'⟩ | ⟨i, reg, b', s₁, s₂, hf, hs, rfl, hacc, hscr, hlo, hm'⟩)
    · exact ⟨b, hm', rfl, rfl, rfl, List.prefix_refl _, by rw [hf]⟩
    · obtain ⟨h₁, h₂⟩ := hs (Or.inr rfl)
      subst hlo
      exact ⟨b', hm', rfl, hacc, hscr, h₁.trans h₂, by rw [hf]; exact ⟨s₁, h₁, h₂, rfl⟩⟩
  · rintro r m' ⟨b', hm', hr⟩
    exact ⟨W, b', hm', hW, hr⟩

/-- **Every function, run alone, has its effect.** -/
theorem tableProg_alone (c : TableCall) (hm : At .none W.cells b m) (hW : W.Ok) :
    logic.Safe (alone allows) (tableProg c) m (CallEnds allows c W b) := by
  have hrd : Held.rd ≠ Held.none := Held.noConfusion
  cases c with
  | validateParam name value => exact kafkaTableValidateParam_alone hm hW
  | setParam name value => exact kafkaTableSetParam_alone hm hW
  | connect brokers => exact kafkaTableConnect_alone hm hW
  | send topic data => exact kafkaTableSend_alone hm hW
  | dismiss topic => exact kafkaTableDismiss_alone hm hW
  | unsetParam name => exact kafkaTableUnsetParam_alone hm hW
  | getStats topic => exact kafkaTopicGetStats_alone hm hW
  | connected =>
      exact (alone_reading_pure hm fun m₁ hm₁ => connectedBody_spec hm₁ hrd).mono
        fun r m' ⟨hm', hr⟩ => ⟨W, b, hm', hW, rfl, rfl, hr⟩
  | «exists» topic =>
      exact (alone_reading_pure hm fun m₁ hm₁ => existsBody_spec hm₁ hrd).mono
        fun r m' ⟨hm', hr⟩ => ⟨W, b, hm', hW, rfl, rfl, hr⟩
  | getBrokers buflen =>
      simp only [tableProg, kafkaTableGetBrokers]
      by_cases h0 : buflen = 0
      · rw [if_pos h0]
        exact Safe.pure ⟨W, b, hm, hW, rfl, rfl, by rw [if_pos h0]⟩
      · rw [if_neg h0]
        exact (alone_reading_pure hm fun m₁ hm₁ => getBrokersBody_spec hm₁ hrd).mono
          fun r m' ⟨hm', hr⟩ => ⟨W, b, hm', hW, rfl, rfl, by rw [if_neg h0]; exact hr⟩
  | describeParams buflen =>
      simp only [tableProg, kafkaTableDescribeParams]
      by_cases h0 : buflen = 0
      · rw [if_pos h0]
        exact Safe.pure ⟨W, b, hm, hW, rfl, rfl, by rw [if_pos h0]⟩
      · rw [if_neg h0]
        exact (alone_reading_pure hm fun m₁ hm₁ => describeBody_spec hm₁ hrd).mono
          fun r m' ⟨hm', hr⟩ => ⟨W, b, hm', hW, rfl, rfl, by rw [if_neg h0]; exact hr⟩
  | create topic =>
      refine (alone_writing hm fun m₁ hm₁ => createLocked_spec hm₁ hW).mono ?_
      rintro r m' ⟨W', b', hm', hW', hb, hc, -, hf⟩
      exact ⟨W', b', hm', hW', hb, hc, hf⟩
  | dismissAll =>
      refine (alone_writing hm fun m₁ hm₁ => kafkaTableDismissAllLocked_spec hm₁ hW).mono ?_
      rintro r m' ⟨W', b', hm', hW', hb, hd⟩
      exact ⟨W', b', hm', hW', hb, hd⟩

/-- **Unloading, run alone**: nothing is left but the records that could not be parked. -/
theorem kafkaTableShutdown_alone (hm : At .none W.cells b m) (hW : W.Ok) :
    logic.Safe (alone allows) kafkaTableShutdown m fun _ m' =>
      ∃ (W' : World) (b' : View), At .none W'.cells b' m' ∧ b.Same b' ∧ W'.conn = none ∧
        W'.params = .null ∧ W'.leaked = W.leaked := by
  refine (alone_writing hm fun m₁ hm₁ => kafkaTableDismissAllLocked_spec hm₁ hW).seq ?_
  rintro _ m₁ ⟨W₁, b₁, hm₁, hW₁, hb₁, hobs, hleaked, -⟩
  have hconn : W₁.conn = none := Option.map_eq_none_iff.mp (congrArg Obs.producer hobs)
  have hclear := alone_writing (P := fun _ W' => W' = W₁.withParams .null) hm₁ fun m₂ hm₂ =>
    (kafkaTableClearParamsLocked_spec (S := alone allows) hm₂ hconn).mono fun _ m₃ hm₃ =>
      ⟨_, b₁, hm₃, World.ok_withParams hconn (CArray.ok_null _) List.nodup_nil
        (fun p hp => by cases hp), .refl b₁, rfl⟩
  refine hclear.mono ?_
  rintro _ m₂ ⟨W₂, b₂, hm₂, -, hb₂, rfl⟩
  exact ⟨_, b₂, hm₂, hb₁.trans hb₂, hconn, rfl, hleaked⟩

/-- What thread `t` may know of the state when nobody else is at work. -/
def View.of (t : Nat) (T : Tab) (d : Flow) : View :=
  ⟨fun p => T.topics.Live p, d.accepted, d.served, d.scratch t⟩

theorem View.sees_of (t : Nat) {T : Tab} {d : Flow} (hi : Inv T d) : (View.of t T d).Sees d :=
  ⟨hi.named, rfl, List.prefix_refl _⟩

theorem At.of (t : Nat) {T : Tab} {d : Flow} {c : Cells} (h : Held) (hT : T.Is c) :
    At h c (View.of t T d) ⟨h, T, View.of t T d⟩ where
  held := rfl
  sh := hT
  view := rfl
  named p hp := by
    obtain ⟨v, hv⟩ := Option.isSome_iff_exists.mp hp
    exact ⟨v, (hT.topics.2 _ _).mpr hv⟩

/-- **A call run alone** takes a well-formed world to a well-formed world, with its effect. -/
theorem exec_effect {t : Nat} {c : TableCall} {items : List (Item Ans Ev)} {T T' : Tab}
    {d d' : Flow} {r : c.Ret} (hi : Inv T d) (hT : T.Is W.cells) (hW : W.Ok)
    (hok : Allowed allows items)
    (he : exec iface t (tableProg c) items T d = some (r, T', d')) :
    Inv T' d' ∧ ∃ W' b', T'.Is W'.cells ∧ W'.Ok ∧ b'.Sees d' ∧ d'.scratch t = b'.scratch ∧
      Effect (MayFail (alone allows)) c W (View.of t T d) r W' b' := by
  have hsafe : logic.Safe (alone allows) (tableProg c) ⟨.none, T, View.of t T d⟩ _ :=
    tableProg_alone c (At.of t .none hT) hW
  obtain ⟨hi', v', ho', hs', W', b', hm', hW', heff⟩ :=
    Logic.exec_safe (L := logic) (b := View.of t T d) hi (Eq.refl (d.scratch t))
      (View.sees_of t hi) hsafe hok he
  obtain rfl : v' = b' := hm'.view
  exact ⟨hi', W', v', hm'.sh, hW', hs', ho', heff⟩

end alone

/-! ### Among other threads -/

section shared

/-- What a thread may know when it takes the lock. -/
def enter (b : View) (T : Tab) (b' : View) : Prop :=
  b'.scratch = b.scratch ∧ ∀ p, b'.named p → T.topics.Live p

/-- A thread between two calls has no throwaway configuration. -/
def View.Idle (b : View) : Prop := b.scratch = []

/-- What a call leaves a thread with. -/
def Left (m' : Mode Tab View) : Prop := m'.held = .none ∧ m'.view.Idle

theorem at_enter {h : Held} {T : Tab} {b₀ b : View} (hT : T.Is W.cells) (he : enter b₀ T b) :
    At h W.cells b ⟨h, T, b⟩ where
  held := rfl
  sh := hT
  view := rfl
  named p hp := by
    obtain ⟨v, hv⟩ := Option.isSome_iff_exists.mp (he.2 p hp)
    exact ⟨v, (hT.topics.2 _ _).mpr hv⟩

theorem shared_writing {body : K α} (hm : m.held = .none) (hv : m.view.Idle)
    (h : ∀ (W : World) b m, W.Ok → At .wr W.cells b m →
      logic.Safe (shared TableInv enter) body m fun _ m' => Ends b m' fun _ => True) :
    logic.Safe (shared TableInv enter) (writing body) m fun _ m' => Left m' := by
  refine Safe.writing hm ?_
  rintro m₁ T b hd ⟨⟨W, hW, hT⟩, he⟩
  refine (h W b _ hW (at_enter hT he)).mono ?_
  rintro r m' ⟨W', b', hm', hW', hb, -⟩
  refine ⟨hm'.held, ⟨W', hW', hm'.sh⟩, Safe.pure ⟨rfl, ?_⟩⟩
  have hview : m₁.view = m.view := hd.2.2
  rw [View.Idle, hm'.view, hb.scratch, he.1, hview]; exact hv

theorem shared_reading {body : K α} (hm : m.held = .none) (hv : m.view.Idle)
    (h : ∀ (W : World) b m, W.Ok → At .rd W.cells b m →
      logic.Safe (shared TableInv enter) body m fun _ m' => ∃ b', At .rd W.cells b' m' ∧
        b'.scratch = b.scratch) :
    logic.Safe (shared TableInv enter) (reading body) m fun _ m' => Left m' := by
  refine Safe.reading hm ?_
  rintro m₁ T b hd ⟨⟨W, hW, hT⟩, he⟩
  refine (h W b _ hW (at_enter hT he)).mono ?_
  rintro r m' ⟨b', hm', hb⟩
  refine ⟨hm'.held, Safe.pure ⟨rfl, ?_⟩⟩
  have hview : m₁.view = m.view := hd.2.2
  rw [View.Idle, hm'.view, hb, he.1, hview]; exact hv

/-- A body that only reads the guarded state. -/
theorem shared_reading_pure {body : K α} {P : World → α → Prop} (hm : m.held = .none)
    (hv : m.view.Idle)
    (h : ∀ (W : World) b m, At .rd W.cells b m →
      logic.Safe (shared TableInv enter) body m fun r m' => P W r ∧ m' = m) :
    logic.Safe (shared TableInv enter) (reading body) m fun _ m' => Left m' :=
  shared_reading hm hv fun W b m₁ _ hm₁ => (h W b m₁ hm₁).mono fun _ _ ⟨_, e⟩ =>
    ⟨b, e ▸ hm₁, rfl⟩

theorem kafkaTableValidateParam_shared {name value : Option CStr} (hm : m.held = .none)
    (hv : m.view.Idle) :
    logic.Safe (shared TableInv enter) (kafkaTableValidateParam name value) m fun r m' =>
      Left m' ∧ (r = .ok () → ∃ n v, name = some n ∧ value = some v ∧ zstr (some n) = false) := by
  have hout : Outside (fun _ => True) m.view m := ⟨hm, trivial, rfl⟩
  refine (kafkaTableValidateParam_spec (fun _ _ => trivial) hout).mono ?_
  rintro r m' ⟨hok, -, hm'⟩
  exact ⟨⟨hm'.held, by rw [View.Idle, hm'.view]; exact hv⟩, hok⟩

/-- **The functions run safely among each other.** -/
theorem tableProg_shared (c : TableCall) (hm : m.held = .none) (hv : m.view.Idle) :
    logic.Safe (shared TableInv enter) (tableProg c) m fun _ m' => Left m' := by
  have hrd : Held.rd ≠ Held.none := by decide
  have hany : ∀ {P : World → Prop} {b : View} {m' : Mode Tab View}, Ends b m' P →
      Ends b m' fun _ => True := fun h => h.mono (.refl _) fun _ _ => trivial
  cases c with
  | connected => exact shared_reading_pure hm hv fun W b m₁ hm₁ => connectedBody_spec hm₁ hrd
  | validateParam name value =>
      exact (kafkaTableValidateParam_shared hm hv).mono fun _ _ h => h.1
  | setParam name value =>
      refine (kafkaTableValidateParam_shared hm hv).seq ?_
      rintro r m₁ ⟨hl, hok⟩
      cases r with
      | error text => exact Safe.pure hl
      | ok _ =>
          obtain ⟨n, v, rfl, rfl, hz⟩ := hok rfl
          exact shared_writing hl.1 hl.2 fun W b m₂ hW hm₂ =>
            (kafkaTableSetParamLocked_spec hm₂ hW hz).mono fun _ _ h => hany h
  | connect brokers =>
      cases brokers with
      | none => exact Safe.pure ⟨hm, hv⟩
      | some bs =>
          simp only [tableProg, kafkaTableConnect]
          by_cases hz : zstr (some bs) = true
          · rw [if_pos hz]
            exact Safe.pure ⟨hm, hv⟩
          · rw [if_neg hz]
            exact shared_writing hm hv fun W b m₂ hW hm₂ =>
              (kafkaTableConnectLocked_spec hm₂ hW (by simpa using hz)).mono fun _ _ h => hany h
  | getBrokers buflen =>
      simp only [tableProg, kafkaTableGetBrokers]
      split
      · exact Safe.pure ⟨hm, hv⟩
      · exact shared_reading_pure hm hv fun W b m₁ hm₁ => getBrokersBody_spec hm₁ hrd
  | describeParams buflen =>
      simp only [tableProg, kafkaTableDescribeParams]
      split
      · exact Safe.pure ⟨hm, hv⟩
      · exact shared_reading_pure hm hv fun W b m₁ hm₁ => describeBody_spec hm₁ hrd
  | «exists» topic => exact shared_reading_pure hm hv fun W b m₁ hm₁ => existsBody_spec hm₁ hrd
  | create topic =>
      exact shared_writing hm hv fun W b m₁ hW hm₁ =>
        (createLocked_spec hm₁ hW).mono fun _ _ h => hany h
  | send topic data =>
      refine Safe.seq (shared_reading hm hv ?_) fun _ m' hm' => Safe.pure hm'
      intro W b m₁ hW hm₁
      refine (sendBody_spec hm₁ hrd).mono ?_
      rintro r m' (⟨-, -, i, reg, id, -, hm'⟩ | ⟨-, -, hm'⟩)
      · exact ⟨_, hm', rfl⟩
      · exact ⟨_, hm', rfl⟩
  | dismiss topic =>
      cases topic with
      | none => exact Safe.pure ⟨hm, hv⟩
      | some t =>
          simp only [tableProg, kafkaTableDismiss]
          split
          · exact Safe.pure ⟨hm, hv⟩
          · exact shared_writing hm hv fun W b m₁ hW hm₁ =>
              (dismissLocked_spec hm₁ hW).mono fun _ _ h => hany h
  | dismissAll =>
      exact shared_writing hm hv fun W b m₁ hW hm₁ =>
        (kafkaTableDismissAllLocked_spec hm₁ hW).mono fun _ _ h => hany h
  | unsetParam name =>
      cases name with
      | none => exact Safe.pure ⟨hm, hv⟩
      | some n =>
          simp only [tableProg, kafkaTableUnsetParam]
          split
          · exact Safe.pure ⟨hm, hv⟩
          · exact shared_writing hm hv fun W b m₁ hW hm₁ =>
              (kafkaTableUnsetParamLocked_spec hm₁ hW).mono fun _ _ h => hany h
  | getStats topic =>
      exact shared_reading hm hv fun W b m₁ hW hm₁ =>
        (getStatsBody_spec hm₁ hrd).mono fun r m' hr => by
          rcases hr with ⟨-, -, hm'⟩ | ⟨i, reg, b', s₁, s₂, -, -, -, -, hscr, -, hm'⟩
          · exact ⟨b, hm', rfl⟩
          · exact ⟨b', hm', hscr⟩

/-- The functions share the table. -/
def sharing : Sharing logic tableProg where
  J := TableInv
  enter := enter
  start := View.Idle
  henter {_ b T d} hi ho := ⟨{ b with named := fun p => T.topics.Live p, acc := d.accepted, lo := [] },
    ⟨rfl, fun _ h => h⟩, ho, hi.named, rfl, List.nil_prefix⟩
  hprog c T b hb := (tableProg_shared c (m := ⟨.none, T, b⟩) rfl hb).mono fun _ _ h => h

end shared

end TrigEmit
