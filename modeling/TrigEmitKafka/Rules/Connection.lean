import TrigEmitKafka.Rules.Table

/-!
# Rules — connecting and disconnecting

`kafka_table_connect` builds a producer from the stored parameters or leaves the world as it was;
`kafka_table_dismiss_all` leaves a world without a connection and with the same parameters;
`kafka_table_clear_params_locked` leaves it without parameters.
-/

namespace TrigEmit

open Conc (Held Logic Mode Setting Prog)
open Conc.Logic (Safe)

variable {S : Setting Tab View Ans} {m : Mode Tab View} {h : Held} {c : Cells} {b : View}

/-! ### Connecting -/

theorem applyParams_spec {tk cf : Nat} {s : Str} {rest : Multiset (Nat × Conf)}
    (ps : List KafkaParam) {v : Conf} {m : Mode Tab View} {c : Cells} (hm : At .wr c b m)
    (hp : (tk, TekKafka.configured s cf) ∈ c.producers) (hc : c.confs = {(cf, v)} + rest)
    (hps : ∀ p ∈ ps, p.name.cell ∈ c.strs ∧ p.value.cell ∈ c.strs ∧
      zstr (some p.name.val) = false) :
    logic.Safe S (applyParams tk ps) m fun r m' =>
      (∃ text v', r = .error text ∧ MayFail S ∧
        At .wr { c with confs := {(cf, v')} + rest } b m') ∨
      r = .ok () ∧ At .wr
        { c with confs := {(cf, { v with sets := v.sets ++ ps.map (·.pair) })} + rest } b m' := by
  induction ps generalizing v m c with
  | nil =>
      refine Safe.pure (Or.inr ⟨rfl, hm.cast ?_⟩)
      rw [List.map_nil, List.append_nil, ← hc]
  | cons p ps ih =>
      obtain ⟨hn, hv, hz⟩ := hps p List.mem_cons_self
      refine (readStr_spec hm (by decide) hn).seq ?_
      rintro _ _ ⟨rfl, rfl⟩
      refine (readStr_spec hm (by decide) hv).seq ?_
      rintro _ _ ⟨rfl, rfl⟩
      refine (tekKafkaProducerSetParam_spec hm hz hp hc).seq ?_
      rintro _ m₁ (⟨text, rfl, hf, hm₁⟩ | ⟨rfl, hm₁⟩)
      · exact Safe.pure (Or.inl ⟨text, v, rfl, hf, hm₁.cast (by rw [← hc])⟩)
      · refine (ih hm₁ hp rfl fun q hq => hps q (List.mem_cons_of_mem _ hq)).mono ?_
        rintro _ m₂ (⟨text, v', rfl, hf, hm₂⟩ | ⟨rfl, hm₂⟩)
        · exact Or.inl ⟨text, v', rfl, hf, hm₂⟩
        · refine Or.inr ⟨rfl, hm₂.cast ?_⟩
          simp only [List.map_cons, List.append_assoc, List.singleton_append]
          rfl

/-- What `kafka_table_connect` does under the lock: a producer is built from the stored
parameters, or nothing that can be observed changes. -/
structure Connected (W : World) (brokers : CStr) (r : Except String Unit) (W' : World) : Prop where
  ok : r = .ok () → W.conn = none ∧ W'.handed = W.handed ++ [applied brokers W.params.items] ∧
    ∃ p : Producer, p.brokers.val = brokers ∧ p.conf = applied brokers W.params.items ∧
      W'.obs = { W.obs with producer := some p }
  fail : r ≠ .ok () → W.Spare W'
  handed : W'.handed = W.handed ∨ W'.handed = W.handed ++ [applied brokers W.params.items]

/-- A world that a producer was just started for. -/
def World.connected (W : World) (p : Producer) : World :=
  { W with conn := some ⟨p, .null, .null⟩, handed := W.handed ++ [p.conf] }

theorem World.Ok.connected {W : World} (hW : W.Ok) {p : Producer}
    (hp : p.conf = applied p.brokers.val W.params.items) : (W.connected p).Ok where
  params := hW.params
  names := hW.names
  nonempty := hW.nonempty
  conn c' e := by
    cases e
    exact ⟨hp, CArray.ok_null _, CArray.ok_null _, List.nodup_nil, fun r hr => by cases hr⟩
  last c' e := by cases e; exact List.getLast?_concat
  flushed c' e r hr := by cases e; cases hr

theorem kafkaTableConnectLocked_spec {W : World} {brokers : CStr} (hm : At .wr W.cells b m)
    (hW : W.Ok) (hz : zstr (some brokers) = false) :
    logic.Safe S (kafkaTableConnectLocked brokers) m fun r m' => Ends b m' fun W' =>
      Connected W brokers r W' ∧ W'.leaked = W.leaked ∧
        (r ≠ .ok () → W.conn.isSome ∨ MayFail S) := by
  refine (loadKt_spec hm (by decide)).seq ?_
  rintro _ m ⟨rfl, rfl⟩
  rcases Option.eq_none_or_eq_some W.conn with hc | ⟨conn, hc⟩
  swap
  · have hk : W.cells.kt.producer.isSome = true := by simp [World.cells, World.kt, hc]
    rw [hk, if_pos rfl]
    refine Safe.pure ⟨W, b, hm, hW, .refl b, ⟨fun e => (by cases e), fun _ => .refl W, Or.inl rfl⟩,
      rfl, fun _ => Or.inl (by rw [hc]; rfl)⟩
  have hk : W.cells.kt.producer = none := by simp [World.cells, World.kt, hc]
  have hth : W.cells.threads = 0 := by simp [World.cells, hc]
  have hrk : W.cells.rks = 0 := by simp [World.cells, hc]
  have hkt : W.cells.rkts = 0 := by simp [World.cells, hc]
  -- a failure gives everything back
  have hfail : ∀ (b' : View) (m' : Mode Tab View) (text : String), b.Same b' → MayFail S →
      (At .wr W.cells b' m' ∨
        At .wr { W.cells with handed := W.handed ++ [applied brokers W.params.items] } b' m') →
      Ends b m' fun W' => Connected W brokers (.error text) W' ∧ W'.leaked = W.leaked ∧
        ((.error text : Except String Unit) ≠ .ok () → W.conn.isSome ∨ MayFail S) := by
    rintro b' m' text hb hf (hm' | hm')
    · exact ⟨W, b', hm', hW, hb, ⟨fun e => (by cases e), fun _ => .refl W, Or.inl rfl⟩, rfl,
        fun _ => Or.inr hf⟩
    · refine ⟨{ W with handed := W.handed ++ [applied brokers W.params.items] }, b', hm', ?_, hb,
        ⟨fun e => (by cases e), fun _ => ⟨rfl, (World.Spare.refl W).conn, rfl, rfl⟩, Or.inr rfl⟩,
        rfl, fun _ => Or.inr hf⟩
      exact ⟨hW.params, hW.names, hW.nonempty, hW.conn, fun c e => absurd (hc.symm.trans e) (by simp),
        hW.flushed⟩
  rw [hk, Option.isSome_none, if_neg (by decide)]
  refine (tekKafkaProducerCreate_spec hm hz hk hth hrk hkt).seq ?_
  rintro _ m₁ (⟨rfl, hf, b', hb, hm₁⟩ | ⟨tk, s, cf, rfl, rfl, hm₁⟩)
  · exact Safe.pure (hfail b' m₁ _ hb hf (Or.inl hm₁))
  have hps : ∀ p ∈ W.params.items, p.name.cell ∈ {s.cell} + W.cells.strs ∧
      p.value.cell ∈ {s.cell} + W.cells.strs ∧ zstr (some p.name.val) = false := fun p hp =>
    ⟨Multiset.mem_add.mpr (Or.inr (World.param_mem hp).1),
      Multiset.mem_add.mpr (Or.inr (World.param_mem hp).2), hW.nonempty p hp⟩
  refine (applyParams_spec W.params.items hm₁ (mem_head _ _) rfl hps).seq ?_
  rintro _ m₂ (⟨text, v', rfl, hf, hm₂⟩ | ⟨rfl, hm₂⟩)
  · -- a stored parameter was refused
    refine (tekKafkaProducerDispose_spec (x := ⟨v'⟩) hm₂ rfl rfl rfl hth hrk hkt).seq ?_
    rintro _ m₃ ⟨b', hb, -, hm₃⟩
    refine Safe.pure (hfail b' m₃ _ hb hf (Or.inl (hm₃.cast ?_)))
    simp only [← hth, ← hrk]
  refine (tekKafkaProducerRun_spec hm₂ rfl rfl hk hth hrk).seq ?_
  rintro _ m₃ (⟨text, w, rfl, hf, hw, hm₃⟩ | ⟨rk, thr, rfl, hm₃⟩)
  · -- the instance or its thread was not started
    obtain ⟨hwb, hwc, hwt⟩ := hw
    have hstr : {s.cell} + W.cells.strs = strCell w.brokers + W.cells.strs := by rw [hwb]; rfl
    have hconf : W.cells.confs = ptrCell w.conf (⟨[], false⟩ : Conf) + W.cells.confs := by
      rw [hwc, ptrCell, zero_add]
    have hthr : W.cells.threads = if w.threadStarted then {(w.thread, tk)} else 0 := by
      rw [hwt]; exact hth
    refine (tekKafkaProducerDispose_spec hm₃ rfl hstr hconf hthr rfl hkt).seq ?_
    rintro _ m₄ ⟨b', hb, -, hm₄⟩
    refine Safe.pure (hfail b' m₄ _ hb hf (Or.inr (hm₄.cast ?_)))
    simp only [← hth, ← hrk]
    rfl
  · let p : Producer := ⟨tk, s, rk, thr, applied s.val W.params.items⟩
    have hW' : (W.connected p).Ok := hW.connected rfl
    refine (storeWorld_spec hm₃ hW' ?_ ?_ rfl rfl).seq fun _ m₄ hm₄ => ?_
    · simp [World.cells, World.kt, World.connected, hc, p]
    · simp [World.cells, World.connected, hc, Conn.arrays, CArray.mem, CArray.null, block]
    refine Safe.pure ⟨W.connected p, b, hm₄.cast ?_, hW', .refl b,
      ⟨fun _ => ⟨hc, rfl, p, rfl, rfl, ?_⟩, fun e => absurd rfl e, Or.inr rfl⟩, rfl,
      fun e => absurd rfl e⟩
    · ext1 <;> simp [World.cells, World.connected, hc, Conn.strs, Conn.arrays, Conn.records,
        CArray.mem, CArray.null, block, Conn.producer, p]
      · rw [← Multiset.singleton_add]; abel
      · rfl
      · rfl
    · simp [World.obs, World.connected, World.regs, hc, CArray.null]

/-! ### Disconnecting -/

/-- A world without its connection; `ds` are the records whose throttle was flushed. -/
def World.disconnected (W : World) (ds : List Nat) : World := { W with conn := none, disposed := ds }

theorem World.Ok.disconnected {W : World} (hW : W.Ok) (ds : List Nat) :
    (W.disconnected ds).Ok where
  params := hW.params
  names := hW.names
  nonempty := hW.nonempty
  conn c' e := by cases e
  last c' e := by cases e
  flushed c' e := by cases e

/-- The world is without a connection, and has the parameters and the leaked records it had. -/
def AllDismissed (W W' : World) : Prop :=
  W'.obs = { W.obs with producer := none, topics := [] } ∧ W'.leaked = W.leaked ∧
    W'.handed = W.handed

theorem World.allDismissed (W : World) (ds : List Nat) : AllDismissed W (W.disconnected ds) :=
  ⟨rfl, rfl, rfl⟩

/-- A `kt` that loses its producer, and any of its two arrays, may be stored while the memory of
what is left is there. -/
theorem storeDismissed_spec {W : World} {k : KafkaTables} (hm : At .wr c b m) (hW : W.Ok)
    (hk : k.producer = none) (hp : k.params = W.params) (ha : W.params.mem paramSize ≤ c.arrays)
    (ht : k.topics.Fits c.arrays topicSize) (hr : k.retired.Fits c.arrays topicSize) :
    logic.Safe S (call (.storeKt k)) m fun _ => At .wr { c with kt := k } b :=
  storeKt_spec hm (hp ▸ hW.params.fits ha) ht hr fun tk e => absurd (hk.symm.trans e) (by simp)

/-- What is left to do once every topic was disposed and the producer is gone. -/
theorem freeAll_spec {W : World} {conn : Conn} {ds : List Nat} (hW : W.Ok) (hc : W.conn = some conn)
    (hds : ∀ p, p ∈ ds ↔ p ∈ conn.topics.items.map (·.tt) ∨ p ∈ W.disposed)
    (hm : At .wr { (W.disconnected ds).cells with
      kt := W.kt
      strs := bag (fun r => r.name.cell) conn.topics.items +
        (bag (fun r => r.name.cell) conn.retired.items + (W.disconnected ds).cells.strs)
      arrays := conn.topics.mem topicSize + (conn.retired.mem topicSize + W.params.mem paramSize)
      topics := bag (fun r => (Reg.old conn.tk r).cell) conn.topics.items +
        (bag Old.cell conn.retired.items + bag Old.cell W.leaked) } b m)
    (hn : ∀ p, ¬ b.named p) :
    logic.Safe S (do
      call (.storeKt { W.kt with producer := none })
      Prog.forEach tekKafkaTopicFree W.kt.topics.items
      safeFreeArray W.kt.topics.ptr
      call (.storeKt { W.kt with producer := none, topics := .null })
      Prog.forEach tekKafkaTopicFree W.kt.retired.items
      safeFreeArray W.kt.retired.ptr
      call (.storeKt { W.kt with producer := none, topics := .null, retired := .null })) m
      fun _ => At .wr (W.disconnected ds).cells b := by
  have hkt : W.kt.topics = conn.topics.map (·.tt) := by simp [World.kt, hc]
  have hkr : W.kt.retired = conn.retired.map (·.tt) := by simp [World.kt, hc]
  -- the records just disposed, as records without a handle
  have hitems : (conn.topics.map (·.tt)).items =
      (conn.topics.items.map (Reg.old conn.tk)).map (·.tt) := by
    rw [List.map_map]; rfl
  have hbag : ∀ {β : Type} (f : Old → β),
      bag (fun r => f (Reg.old conn.tk r)) conn.topics.items =
        bag f (conn.topics.items.map (Reg.old conn.tk)) := fun f => by
    simp only [bag, List.map_map]; rfl
  have hok := hW.conn conn hc
  have hnull : ∀ a, (CArray.null : CArray Nat).Fits a topicSize := fun a => Or.inl rfl
  have hpar : W.params.mem paramSize ≤
      conn.topics.mem topicSize + (conn.retired.mem topicSize + W.params.mem paramSize) :=
    (Multiset.le_add_left _ _).trans (Multiset.le_add_left _ _)
  have htop : W.kt.topics.Fits
      (conn.topics.mem topicSize + (conn.retired.mem topicSize + W.params.mem paramSize))
      topicSize := hkt ▸ (hok.topics.map _).fits (Multiset.le_add_right _ _)
  have hret : ∀ a, conn.retired.mem topicSize ≤ a → W.kt.retired.Fits a topicSize :=
    fun a ha => hkr ▸ (hok.retired.map _).fits ha
  refine (storeDismissed_spec (k := { W.kt with producer := none }) hm hW rfl rfl hpar htop (hret _
    ((Multiset.le_add_right _ _).trans (Multiset.le_add_left _ _)))).seq fun _ m₁ hm₁ => ?_
  rw [hkt, hkr, hitems]
  have hrec : bag (fun r => (Reg.old conn.tk r).cell) conn.topics.items +
      (bag Old.cell conn.retired.items + bag Old.cell W.leaked) =
        bag Old.cell (conn.topics.items.map (Reg.old conn.tk)) +
          (bag Old.cell conn.retired.items + bag Old.cell W.leaked) := by rw [← hbag Old.cell]
  have hstr : bag (fun r => r.name.cell) conn.topics.items +
      (bag (fun r => r.name.cell) conn.retired.items + (W.disconnected ds).cells.strs) =
        bag (fun r => r.name.cell) (conn.topics.items.map (Reg.old conn.tk)) +
          (bag (fun r => r.name.cell) conn.retired.items + (W.disconnected ds).cells.strs) := by
    rw [← hbag (fun r => r.name.cell)]; rfl
  refine (forEach_topicFree_spec (conn.topics.items.map (Reg.old conn.tk)) hm₁ hrec hstr hn
    fun r hr => ?_).seq fun _ m₂ hm₂ => ?_
  · obtain ⟨r', hr', rfl⟩ := List.mem_map.mp hr
    exact (hds _).mpr (Or.inl (List.mem_map_of_mem hr'))
  refine (safeFreeArray_spec (k := conn.topics.capacity * topicSize) hm₂ rfl).seq fun _ m₃ hm₃ => ?_
  refine (storeDismissed_spec (k := { W.kt with producer := none, topics := .null }) hm₃ hW rfl rfl
    (Multiset.le_add_left _ _) (hnull _) (hret _ (Multiset.le_add_right _ _))).seq fun _ m₄ hm₄ => ?_
  refine (forEach_topicFree_spec conn.retired.items hm₄ rfl rfl hn fun r hr =>
    (hds _).mpr (Or.inr (hW.flushed conn hc r hr))).seq fun _ m₅ hm₅ => ?_
  refine (safeFreeArray_spec (k := conn.retired.capacity * topicSize) hm₅ rfl).seq fun _ m₆ hm₆ => ?_
  refine (storeDismissed_spec hm₆ hW rfl rfl (le_refl _) (hnull _) (hnull _)).mono fun _ m₇ hm₇ => ?_
  refine hm₇.cast ?_
  ext1 <;> simp [World.cells, World.disconnected, World.kt]

theorem kafkaTableDismissAllLocked_spec {W : World} (hm : At .wr W.cells b m) (hW : W.Ok) :
    logic.Safe S kafkaTableDismissAllLocked m fun _ m' => Ends b m' (AllDismissed W) := by
  refine (loadKt_spec hm (by decide)).seq ?_
  rintro _ m ⟨rfl, rfl⟩
  rcases Option.eq_none_or_eq_some W.conn with hc | ⟨conn, hc⟩
  · -- there is nothing to dismiss
    have hkt : W.cells.kt = ⟨none, W.params, .null, .null⟩ := by simp [World.cells, World.kt, hc]
    have hpar : W.params.mem paramSize ≤ W.cells.arrays := Multiset.le_add_right _ _
    have hstore : ∀ m₁, At .wr W.cells b m₁ → logic.Safe S (call (.storeKt W.cells.kt)) m₁ fun _ =>
        At .wr W.cells b := fun m₁ hm₁ => by
      refine (storeWorld_spec hm₁ hW rfl rfl rfl rfl).mono fun _ m₂ hm₂ => hm₂.cast rfl
    have hend : ∀ m₁, At .wr W.cells b m₁ → Ends b m₁ (AllDismissed W) := fun m₁ hm₁ =>
      ⟨W, b, hm₁, hW, .refl b, by simp [World.obs, World.regs, hc], rfl, rfl⟩
    rw [hkt] at hstore ⊢
    exact (hstore m hm).seq fun _ m₁ hm₁ => (hstore m₁ hm₁).seq fun _ m₂ hm₂ =>
      (hstore m₂ hm₂).mono fun _ m₃ hm₃ => hend m₃ hm₃
  · have hk : W.cells.kt.producer = some conn.tk := by simp [World.cells, World.kt, hc]
    have hprod : W.cells.producers = {conn.producer} + 0 := by simp [World.cells, hc]
    have hrks : W.cells.rks = {(conn.rk, ⟨conn.conf⟩)} := by simp [World.cells, hc]
    -- whatever the flush leaves in flight
    have hrest : ∀ b₁ m₁, At .wr W.cells b₁ m₁ → b.Same b₁ → logic.Safe S (do
        Prog.forEach tekKafkaTopicDispose W.cells.kt.topics.items
        tekKafkaProducerDispose W.cells.kt.producer
        call (.storeKt { W.cells.kt with producer := none })
        Prog.forEach tekKafkaTopicFree W.cells.kt.topics.items
        safeFreeArray W.cells.kt.topics.ptr
        call (.storeKt { W.cells.kt with producer := none, topics := .null })
        Prog.forEach tekKafkaTopicFree W.cells.kt.retired.items
        safeFreeArray W.cells.kt.retired.ptr
        call (.storeKt { W.cells.kt with producer := none, topics := .null, retired := .null })) m₁
        fun _ m' => Ends b m' (AllDismissed W) := by
      intro b₁ m₁ hm₁ hb₁
      have hitems : W.cells.kt.topics.items = conn.topics.items.map (·.tt) := by
        simp [World.cells, World.kt, hc]
      have hrec : W.cells.topics = bag (Reg.cell conn.tk) conn.topics.items +
          (bag Old.cell conn.retired.items + bag Old.cell W.leaked) := by
        simp [World.cells, hc, Conn.records, add_assoc]
      have hhandles : W.cells.rkts = bag (Reg.handle conn.rk) conn.topics.items := by
        simp [World.cells, hc]
      have hdispose := forEach_topicDispose_spec (S := S) conn.topics.items hm₁ hrec hhandles
      rw [← hitems] at hdispose
      refine hdispose.seq ?_
      rintro _ m₂ ⟨ds, hds, hm₂⟩
      rw [hitems] at hds
      rw [hk]
      have hstr : W.cells.strs = strCell (some conn.brokers) +
          (bag (fun r => r.name.cell) conn.topics.items +
            (bag (fun r => r.name.cell) conn.retired.items + (W.disconnected ds).cells.strs)) := by
        simp only [World.cells, World.disconnected, hc, Option.elim, Conn.strs, strCell]; abel
      have hconf : W.cells.confs = ptrCell none (⟨[], false⟩ : Conf) + 0 := by
        simp [World.cells, ptrCell]
      have hthr : W.cells.threads = {(conn.thr, conn.tk)} := by simp [World.cells, hc]
      refine (tekKafkaProducerDispose_spec hm₂ hprod hstr hconf hthr hrks rfl).seq ?_
      rintro _ m₃ ⟨b', hb', hn, hm₃⟩
      refine (freeAll_spec hW hc hds (hm₃.cast ?_) (hn (by simp))).mono fun _ m₄ hm₄ =>
        ⟨W.disconnected ds, b', hm₄, hW.disconnected ds, hb₁.trans hb', W.allDismissed ds⟩
      ext1 <;> simp only [World.cells, World.disconnected, hc, Option.elim, Conn.arrays]
      abel
    rw [hk]
    refine (tekKafkaProducerFlush_spec hm (by decide) (World.producer_mem hc) rfl
      (World.rk_mem hc)).seq ?_
    rw [← hk]
    rintro n m₁ (⟨-, hm₁⟩ | ⟨-, hm₁⟩)
    · exact hrest _ _ hm₁ b.same_drained
    · exact hrest _ _ hm₁ (.refl b)

/-! ### Unloading -/

theorem forEach_freeParam_spec (ps : List KafkaParam) {rest : Multiset (Nat × CStr)}
    {m : Mode Tab View} {c : Cells} (hm : At .wr c b m) (hs : c.strs = paramStrs ps + rest) :
    logic.Safe S (Prog.forEach freeParam ps) m fun _ => At .wr { c with strs := rest } b := by
  induction ps generalizing m c with
  | nil =>
      rw [paramStrs, bag_nil, bag_nil, zero_add, zero_add] at hs
      subst hs
      exact Safe.pure hm
  | cons p ps ih =>
      have hs' : c.strs = {p.name.cell} + ({p.value.cell} + (paramStrs ps + rest)) := by
        rw [hs, paramStrs, paramStrs, bag_cons, bag_cons]; abel
      refine (freeParam_spec hm hs').seq fun _ m₁ hm₁ => ?_
      have hrest := ih hm₁ rfl
      exact hrest

/-- The parameters are cleared once nothing was built from them. -/
theorem kafkaTableClearParamsLocked_spec {W : World} (hm : At .wr W.cells b m)
    (hc : W.conn = none) :
    logic.Safe S kafkaTableClearParamsLocked m fun _ => At .wr (W.withParams .null).cells b := by
  have hW' : (W.withParams .null).Ok :=
    World.ok_withParams hc (CArray.ok_null _) List.nodup_nil fun p hp => by cases hp
  refine (loadKt_spec hm (by decide)).seq ?_
  rintro _ m ⟨rfl, rfl⟩
  have hstr : W.cells.strs = paramStrs W.params.items + bag (fun r => r.name.cell) W.leaked := by
    simp [World.cells, hc]
  have harr : W.cells.arrays = block W.params.ptr (W.params.capacity * paramSize) + 0 := by
    simp [World.cells, hc, CArray.mem]
  refine (forEach_freeParam_spec W.params.items hm hstr).seq fun _ m₁ hm₁ => ?_
  refine (safeFreeArray_spec hm₁ harr).seq fun _ m₂ hm₂ => ?_
  refine (storeWorld_spec hm₂ hW' rfl ?_ rfl rfl).mono fun _ m₃ hm₃ => hm₃.cast ?_
  · simp [World.cells, World.withParams, hc, CArray.mem, CArray.null, block]
  · ext1 <;> simp [World.cells, World.withParams, hc, CArray.mem, CArray.null, block, paramStrs]

end TrigEmit
