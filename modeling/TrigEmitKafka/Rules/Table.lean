import TrigEmitKafka.Rules.Helpers

/-!
# Rules — the critical sections of `kafka-table.c`

Each takes a well-formed world to a well-formed world, and what it does to what can be observed
is stated in full, for success and for every failure.
-/

namespace TrigEmit

open Store (Heap)
open Conc (Held Logic Mode Setting Prog)
open Conc.Logic (Safe)
open Slots (firstIdx firstIdx_some firstIdx_none firstIdx_map swapRemove put put_eq_set
  put_eq_append set_eq_self perm_cons_swapRemove length_swapRemove map_swapRemove mem_of_mem_swapRemove)

variable {S : Setting Tab View Ans} {m : Mode Tab View} {h : Held} {c : Cells} {b : View}

/-! ### Topics -/

theorem World.findTopic_some {W : World} {topic : CStr} {i : Nat} {r : Reg}
    (hf : W.findTopic topic = some (i, r)) : W.regs[i]? = some r ∧ r.name.val = topic := by
  obtain ⟨-, hi, hr⟩ := firstIdx_some hf
  exact ⟨hi, of_decide_eq_true hr⟩

theorem World.findTopic_none {W : World} {topic : CStr} (hf : W.findTopic topic = none) :
    ∀ r ∈ W.regs, r.name.val ≠ topic := fun r hr =>
  of_decide_eq_false (firstIdx_none hf r hr)

/-- A topic is found only while connected. -/
theorem World.conn_of_findTopic {W : World} {topic : CStr} {x : Nat × Reg}
    (hf : W.findTopic topic = some x) : ∃ c, W.conn = some c := by
  cases hc : W.conn with
  | none => rw [findTopic, regs, hc] at hf; cases hf
  | some c => exact ⟨c, rfl⟩

/-- A connection with its topic array grown to `a`. -/
def Conn.grown (c : Conn) (a : CArray Nat) : Conn :=
  { c with topics := ⟨a.ptr, c.topics.items, a.capacity⟩ }

/-- A connection with one more topic. -/
def Conn.insert (c : Conn) (r : Reg) : Conn :=
  { c with topics := { c.topics with items := c.topics.items ++ [r] } }

theorem World.Ok.grown {W : World} {c : Conn} (hW : W.Ok) (hc : W.conn = some c) {a : CArray Nat}
    (ha : a.Ok topicSize) (hi : a.items = c.topics.items.map (·.tt)) :
    World.Ok { W with conn := some (c.grown a) } where
  params := hW.params
  names := hW.names
  nonempty := hW.nonempty
  conn c' e := by
    cases e
    have h := hW.conn c hc
    refine ⟨h.conf, ha.of_le ?_, h.retired, h.names, h.nonempty⟩
    have := ha.length; rwa [hi, List.length_map] at this
  last c' e := by cases e; exact hW.last c hc
  flushed c' e r hr := by cases e; exact hW.flushed c hc r hr

theorem World.Ok.insert {W : World} {c : Conn} (hW : W.Ok) (hc : W.conn = some c) {r : Reg}
    (hlt : c.topics.items.length < c.topics.capacity) (hz : zstr (some r.name.val) = false)
    (hn : W.findTopic r.name.val = none) : World.Ok { W with conn := some (c.insert r) } where
  params := hW.params
  names := hW.names
  nonempty := hW.nonempty
  conn c' e := by
    cases e
    have h := hW.conn c hc
    refine ⟨h.conf, h.topics.of_le (by simpa using Nat.succ_le_of_lt hlt), h.retired, ?_, fun r' hr' => ?_⟩
    · simp only [Conn.insert, List.map_append, List.map_cons, List.map_nil]
      refine List.nodup_append.mpr ⟨h.names, List.nodup_singleton _, fun x hx y hy e => ?_⟩
      obtain ⟨r', hr', rfl⟩ := List.mem_map.mp hx
      rw [List.mem_singleton.mp hy] at e
      exact World.findTopic_none hn r' (by rwa [World.regs_conn hc]) e
    · rcases List.mem_append.mp hr' with hr' | hr'
      · exact h.nonempty r' hr'
      · rw [List.mem_singleton.mp hr']; exact hz
  last c' e := by cases e; exact hW.last c hc
  flushed c' e r hr := by cases e; exact hW.flushed c hc r hr

/-- What `kafka_table_create` does, where `acc` are the messages accepted so far: nothing where the
topic is there, else it is added at the end with a record no message names; on failure nothing
changes. -/
structure Created (acc : List Message) (W : World) (topic : Option CStr) (r : Int) (W' : World) : Prop where
  ok : r = 0 → ∃ name, topic = some name ∧
    ((∃ x, W.findTopic name = some x) ∧ W'.obs = W.obs ∨
      W.findTopic name = none ∧ W.conn.isSome ∧ zstr (some name) = false ∧
        ∃ reg : Reg, reg.name.val = name ∧ (∀ x ∈ acc, x.tt ≠ reg.tt) ∧
          W'.obs = { W.obs with topics := W.regs ++ [reg] })
  fail : r ≠ 0 → r = -1 ∧ W.Spare W' ∧ topic.bind W.findTopic = none

/-- Why it may fail. -/
def CreateFails (S : Setting Tab View Ans) (W : World) (topic : Option CStr) : Prop :=
  MayFail S ∨ W.conn = none ∨ zstr topic = true

/-- The array of the topics is stored, grown to `a`. -/
theorem storeGrown_spec {W : World} {conn : Conn} {a : CArray Nat}
    (hm : At .wr { W.cells with
      arrays := a.mem topicSize + (W.params.mem paramSize + conn.retired.mem topicSize) } b m)
    (hW : W.Ok) (hc : W.conn = some conn) (ha : a.Ok topicSize)
    (hi : a.items = conn.topics.items.map (·.tt)) :
    logic.Safe S (call (.storeKt { W.cells.kt with topics := a })) m fun _ =>
      At .wr (World.cells { W with conn := some (conn.grown a) }) b := by
  refine (storeWorld_spec hm (hW.grown hc ha hi) ?_ ?_ ?_ rfl).mono fun _ m' hm' => hm'.cast ?_
  · simp only [World.cells, World.kt, hc, Conn.grown, CArray.map, Option.elim, Option.map]
    rw [show conn.topics.items.map (·.tt) = a.items from hi.symm]
  · simp only [World.cells, Option.elim, Conn.arrays, Conn.grown, CArray.mem]
    abel
  · simp [World.cells, hc, Conn.grown]
  · ext1 <;> simp only [World.cells, hc, Option.elim, Conn.strs, Conn.arrays,
      Conn.records, Conn.producer, Conn.grown, CArray.mem]
    abel

/-- A topic that is not there is added at the end of an array with room for it. -/
theorem insertTopic_spec {W : World} {conn : Conn} {topic : Option CStr}
    (hm : At .wr W.cells b m) (hW : W.Ok) (hc : W.conn = some conn)
    (hlt : conn.topics.items.length < conn.topics.capacity)
    (hf : topic.bind W.findTopic = none) :
    logic.Safe S (do
      match ← tekKafkaTopicCreate conn.tk topic with
      | none    => pure (-1)
      | some tt =>
          call (.storeKt { W.cells.kt with
            topics := { W.cells.kt.topics with items := W.cells.kt.topics.items ++ [tt] } })
          pure (0 : Int)) m fun r m' => Ends b m' fun W' =>
      Created b.acc W topic r W' ∧ W'.leaked = W.leaked ∧
        (r ≠ 0 → MayFail S ∨ zstr topic = true) := by
  have hfail : ∀ m', At .wr W.cells b m' → (MayFail S ∨ zstr topic = true) →
      Ends b m' fun W' => Created b.acc W topic (-1) W' ∧ W'.leaked = W.leaked ∧
        ((-1 : Int) ≠ 0 → MayFail S ∨ zstr topic = true) := fun m' hm' hwhy =>
    ⟨W, b, hm', hW, .refl b, ⟨fun e => by simp at e, fun _ => ⟨rfl, .refl W, hf⟩⟩, rfl,
      fun _ => hwhy⟩
  cases topic with
  | none =>
      refine (loadTk_spec hm Held.noConfusion (World.producer_mem hc)).seq ?_
      rintro _ m₁ ⟨rfl, rfl⟩
      exact Safe.pure (hfail m₁ hm (Or.inr rfl))
  | some name =>
      refine (tekKafkaTopicCreate_spec hm (World.producer_mem hc) rfl (World.rk_mem hc)).seq ?_
      rintro _ m₁ (⟨rfl, hwhy, hm₁⟩ | ⟨reg, rfl, hname, hz, hacc, hm₁⟩)
      · exact Safe.pure (hfail m₁ hm₁ hwhy)
      subst hname
      have hW' := hW.insert hc hlt hz hf
      have hstore : logic.Safe S (call (.storeKt { W.cells.kt with
          topics := { W.cells.kt.topics with items := W.cells.kt.topics.items ++ [reg.tt] } })) m₁
          fun _ => At .wr (World.cells { W with conn := some (conn.insert reg) }) b := by
        refine (storeWorld_spec hm₁ hW' ?_ ?_ ?_ rfl).mono fun _ m₂ hm₂ => hm₂.cast ?_
        · simp [World.cells, World.kt, hc, Conn.insert, CArray.map]
        · simp [World.cells, hc, Conn.arrays, Conn.insert, CArray.mem]
        · simp [World.cells, hc, Conn.insert]
        · ext1 <;> simp only [World.cells, hc, Option.elim, Conn.strs, Conn.arrays,
            Conn.records, Conn.producer, Conn.insert, CArray.mem, bag_append,
            bag_cons, bag_nil, add_zero] <;> abel
      refine hstore.seq fun _ m₂ hm₂ => Safe.pure ⟨_, b, hm₂, hW', .refl b,
        ⟨fun _ => ⟨reg.name.val, rfl, Or.inr ⟨hf, by rw [hc]; rfl, hz, reg, rfl, hacc, ?_⟩⟩,
          fun e => absurd rfl e⟩, rfl, fun e => absurd rfl e⟩
      simp [World.obs, World.regs, hc, Conn.insert]

/-- What is created where the array was grown is created. -/
theorem Created.of_grown {acc : List Message} {W W₁ W' : World} {topic : Option CStr} {r : Int}
    (h : Created acc W₁ topic r W') (hs : W.Spare W₁) (hconn : W₁.conn.isSome → W.conn.isSome) :
    Created acc W topic r W' := by
  have hfind : W₁.findTopic = W.findTopic := funext fun n => by
    rw [World.findTopic, World.findTopic, hs.regs]
  refine ⟨fun hr => ?_, fun hr => ?_⟩
  · obtain ⟨n, hn, h⟩ := h.ok hr
    rw [hfind, hs.obs, hs.regs] at h
    refine ⟨n, hn, h.imp_right ?_⟩
    rintro ⟨hf, hc, hrest⟩
    exact ⟨hf, hconn hc, hrest⟩
  · obtain ⟨h₁, h₂, h₃⟩ := h.fail hr
    rw [hfind] at h₃
    exact ⟨h₁, hs.trans h₂, h₃⟩

theorem createEntry_spec {W : World} {topic : Option CStr} (hm : At .wr W.cells b m) (hW : W.Ok) :
    logic.Safe S (createEntry topic) m fun r m' => Ends b m' fun W' =>
      Created b.acc W topic r W' ∧ W'.leaked = W.leaked ∧ (r ≠ 0 → CreateFails S W topic) := by
  refine (kafkaTableFindLocked_spec hm Held.noConfusion).seq ?_
  rintro _ m ⟨rfl, rfl⟩
  cases hf : topic.bind W.findTopic with
  | some x =>
      obtain ⟨name, rfl, hx⟩ := Option.bind_eq_some_iff.mp hf
      refine Safe.pure ⟨W, b, hm, hW, .refl b, ⟨fun _ => ?_, fun e => absurd rfl e⟩, rfl,
        fun e => absurd rfl e⟩
      exact ⟨name, rfl, Or.inl ⟨⟨x, hx⟩, rfl⟩⟩
  | none =>
      have hfail : ∀ m', At .wr W.cells b m' → CreateFails S W topic →
          Ends b m' fun W' => Created b.acc W topic (-1) W' ∧ W'.leaked = W.leaked ∧
            ((-1 : Int) ≠ 0 → CreateFails S W topic) := fun m' hm' hwhy =>
        ⟨W, b, hm', hW, .refl b, ⟨fun e => by simp at e, fun _ => ⟨rfl, .refl W, hf⟩⟩, rfl,
          fun _ => hwhy⟩
      refine (loadKt_spec hm Held.noConfusion).seq ?_
      rintro _ m ⟨rfl, rfl⟩
      cases hc : W.conn with
      | none =>
          have hk : W.cells.kt.producer = none := by simp [World.cells, World.kt, hc]
          simp only [hk]
          exact Safe.pure (hfail m hm (Or.inr (Or.inl hc)))
      | some conn =>
          have hk : W.cells.kt.producer = some conn.tk := by simp [World.cells, World.kt, hc]
          have hkt : W.cells.kt.topics = conn.topics.map (·.tt) := by
            simp [World.cells, World.kt, hc]
          have harr : W.cells.arrays = (conn.topics.map (·.tt)).mem topicSize +
              (W.params.mem paramSize + conn.retired.mem topicSize) := by
            simp only [World.cells, hc, Option.elim, Conn.arrays, CArray.mem, CArray.map_ptr,
              CArray.map_capacity]
            abel
          have htop := (hW.conn conn hc).topics
          simp only [hk, hkt]
          refine (kafkaTableGrow_spec hm (by decide) (by decide) (htop.map _) harr).seq ?_
          rintro _ m₁ (⟨rfl, hmf, hm₁⟩ | ⟨a, rfl, hitems, ha, hlt, hm₁⟩)
          · exact Safe.pure (hfail m₁ hm₁ (Or.inl hmf))
          -- there is room now, and nothing else is different
          refine Safe.seq (storeGrown_spec hm₁ hW hc ha hitems) fun _ m₂ hm₂ => ?_
          have hspare : W.Spare { W with conn := some (conn.grown a) } :=
            ⟨rfl, by rw [hc]; exact .some ⟨rfl, rfl, Or.inl rfl⟩, rfl, rfl⟩
          have hf₁ : topic.bind (World.findTopic { W with conn := some (conn.grown a) }) = none := by
            rw [show World.findTopic { W with conn := some (conn.grown a) } = W.findTopic from
              funext fun n => by rw [World.findTopic, World.findTopic, hspare.regs]]
            exact hf
          have hinsert := insertTopic_spec (S := S) hm₂ (hW.grown hc ha hitems) rfl
            (by simpa [Conn.grown] using hlt) hf₁
          have hkt₁ : World.kt { W with conn := some (conn.grown a) } =
              { W.cells.kt with topics := a } := by
            simp only [World.cells, World.kt, hc, Conn.grown, CArray.map, Option.elim, Option.map]
            rw [show conn.topics.items.map (·.tt) = a.items from hitems.symm]
          rw [show (World.cells { W with conn := some (conn.grown a) }).kt = _ from hkt₁] at hinsert
          refine hinsert.mono fun r m₃ hm₃ => hm₃.mono (.refl b) ?_
          rintro W' ⟨hcr, hl, hwhy⟩
          exact ⟨hcr.of_grown hspare fun _ => by rw [hc]; rfl, hl,
            fun hr => (hwhy hr).imp_right Or.inr⟩

theorem createLocked_spec {W : World} {topic : Option CStr} (hm : At .wr W.cells b m) (hW : W.Ok) :
    logic.Safe S (do
      let res ← createEntry topic
      kafkaTableReapRetiredLocked
      pure res) m fun r m' => Ends b m' fun W' =>
      Created b.acc W topic r W' ∧ W'.leaked = W.leaked ∧ (r ≠ 0 → CreateFails S W topic) := by
  refine (createEntry_spec hm hW).seq ?_
  rintro r m₁ ⟨W₁, b₁, hm₁, hW₁, hb₁, hcr, hl, hf⟩
  refine (kafkaTableReapRetiredLocked_spec hm₁ hW₁).seq fun _ m₂ hm₂ => Safe.pure ?_
  refine hm₂.mono hb₁ fun W' hs => ⟨⟨?_, fun hr => ?_⟩, hs.leaked.trans hl, hf⟩
  · rw [hs.obs]; exact hcr.ok
  · obtain ⟨h₁, h₂, h₃⟩ := hcr.fail hr
    exact ⟨h₁, h₂.trans hs, h₃⟩

/-- What `kafka_table_dismiss` does: exactly the topic named goes, or nothing where there is
none. -/
structure Dismissed (W : World) (topic : CStr) (r : Int) (W' : World) : Prop where
  ok : r = 0 → ∃ i reg, W.findTopic topic = some (i, reg) ∧
    W'.obs = { W.obs with topics := swapRemove i W.regs }
  fail : r ≠ 0 → r = -1 ∧ W.Spare W' ∧ W.findTopic topic = none

theorem dismissEntry_spec {W : World} {topic : CStr} (hm : At .wr W.cells b m) (hW : W.Ok) :
    logic.Safe S (dismissEntry topic) m fun r m' => Ends b m' fun W' =>
      Dismissed W topic r W' ∧ (W'.leaked = W.leaked ∨ MayFail S) := by
  refine (loadKt_spec hm (by decide)).seq ?_
  rintro _ m ⟨rfl, rfl⟩
  refine (findTopic_spec hm (by decide)).seq ?_
  rintro _ m ⟨rfl, rfl⟩
  cases hf : W.findTopic topic with
  | none =>
      exact Safe.pure ⟨W, b, hm, hW, .refl b,
        ⟨fun e => by simp at e, fun _ => ⟨rfl, .refl W, hf⟩⟩, Or.inl rfl⟩
  | some x =>
      obtain ⟨i, reg⟩ := x
      obtain ⟨conn, hc⟩ := World.conn_of_findTopic hf
      have hi := (World.findTopic_some hf).1
      rw [World.regs_conn hc] at hi
      have hk : W.cells.kt.producer = some conn.tk := by simp [World.cells, World.kt, hc]
      -- whatever the flush leaves in flight
      have hremove : ∀ (b₁ : View) (m₁ : Mode Tab View), At .wr W.cells b₁ m₁ → b.Same b₁ →
          logic.Safe S (do kafkaTableRemoveLocked i; pure (0 : Int)) m₁ fun r m' =>
            Ends b m' fun W' => Dismissed W topic r W' ∧ (W'.leaked = W.leaked ∨ MayFail S) := by
        intro b₁ m₁ hm₁ hb
        refine (kafkaTableRemoveLocked_spec hm₁ hW hc hi).seq fun _ m₂ hm₂ => Safe.pure ?_
        refine hm₂.mono hb ?_
        rintro W' ⟨ho, hl⟩
        exact ⟨⟨fun _ => ⟨i, reg, hf, ho⟩, fun e => absurd rfl e⟩, hl⟩
      simp only [hk, Option.map_some, Prod.map]
      refine (tekKafkaProducerFlush_spec hm (by decide) (World.producer_mem hc) rfl
        (World.rk_mem hc)).seq ?_
      rintro n m₁ (⟨-, hm₁⟩ | ⟨-, hm₁⟩)
      · exact hremove _ _ hm₁ b.same_drained
      · exact hremove _ _ hm₁ (.refl b)

theorem dismissLocked_spec {W : World} {topic : CStr} (hm : At .wr W.cells b m) (hW : W.Ok) :
    logic.Safe S (do
      let res ← dismissEntry topic
      kafkaTableReapRetiredLocked
      pure res) m fun r m' => Ends b m' fun W' =>
      Dismissed W topic r W' ∧ (W'.leaked = W.leaked ∨ MayFail S) := by
  refine (dismissEntry_spec hm hW).seq ?_
  rintro r m₁ ⟨W₁, b₁, hm₁, hW₁, hb₁, hdi, hl⟩
  refine (kafkaTableReapRetiredLocked_spec hm₁ hW₁).seq fun _ m₂ hm₂ => Safe.pure ?_
  refine hm₂.mono hb₁ fun W' hs => ⟨⟨?_, fun hr => ?_⟩, by rw [hs.leaked]; exact hl⟩
  · rw [hs.obs]; exact hdi.ok
  · obtain ⟨h₁, h₂, h₃⟩ := hdi.fail hr
    exact ⟨h₁, h₂.trans hs, h₃⟩

/-! ### Parameters -/

theorem World.findParam_some {W : World} {name : CStr} {i : Nat} {p : KafkaParam}
    (hf : W.findParam name = some (i, p)) :
    W.params.items[i]? = some p ∧ p.name.val = name := by
  obtain ⟨-, hi, hr⟩ := firstIdx_some hf
  exact ⟨hi, of_decide_eq_true hr⟩

theorem World.findParam_none {W : World} {name : CStr} (hf : W.findParam name = none) :
    ∀ p ∈ W.params.items, p.name.val ≠ name := fun p hp =>
  of_decide_eq_false (firstIdx_none hf p hp)

/-- The name and the value of a stored parameter. -/
def KafkaParam.pair (p : KafkaParam) : CStr × CStr := (p.name.val, p.value.val)

theorem World.obs_params (W : World) : W.obs.params = W.params.items.map (·.pair) := rfl

/-- The search by name sees the names and values only. -/
theorem World.findParam_obs (W : World) (name : CStr) :
    firstIdx (fun x => decide (x.1 = name)) 0 W.obs.params =
      (W.findParam name).map (Prod.map id (·.pair)) := by
  rw [obs_params, firstIdx_map]; rfl

/-- A world with other parameters. -/
def World.withParams (W : World) (ps : CArray KafkaParam) : World := { W with params := ps }

theorem World.ok_withParams {W : World} (hc : W.conn = none) {ps : CArray KafkaParam}
    (hp : ps.Ok paramSize) (hn : (ps.items.map fun p => p.name.val).Nodup)
    (hz : ∀ p ∈ ps.items, zstr (some p.name.val) = false) : (W.withParams ps).Ok :=
  ⟨hp, hn, hz, fun c e => absurd (hc.symm.trans e) (by simp),
    fun c e => absurd (hc.symm.trans e) (by simp), fun c e => absurd (hc.symm.trans e) (by simp)⟩

/-- What `kafka_table_set_param` does under the lock. -/
structure ParamSet (W : World) (name value : CStr) (r : Except String Unit) (W' : World) :
    Prop where
  ok : r = .ok () → W.conn = none ∧ W'.obs = { W.obs with params := put name value W.obs.params }
  fail : r ≠ .ok () → W.Spare W'

/-- The value of a stored parameter is replaced in place. -/
theorem replaceParam_spec {W : World} {name : CStr} {i : Nat} {p : KafkaParam} {v : Str}
    (hm : At .wr { W.cells with strs := {v.cell} + W.cells.strs } b m) (hW : W.Ok)
    (hc : W.conn = none) (hf : W.findParam name = some (i, p)) :
    logic.Safe S (do
      call (.freeStr p.value.ptr)
      call (.storeKt { W.kt with
        params := { W.kt.params with items := W.kt.params.items.set i ⟨p.name, v⟩ } })
      pure (.ok () : Except String Unit)) m
      fun r m' => r = .ok () ∧ Ends b m' fun W' =>
        W'.obs = { W.obs with params := put name v.val W.obs.params } ∧ W'.leaked = W.leaked := by
  obtain ⟨hi, hname⟩ := World.findParam_some hf
  obtain ⟨hold, hnew⟩ := getElem_perm hi
  have hlt := (List.getElem?_eq_some_iff.mp hi).1
  set ps : CArray KafkaParam := { W.params with items := W.params.items.set i ⟨p.name, v⟩ } with hps
  have hmem : ∀ q ∈ ps.items, q = ⟨p.name, v⟩ ∨ q ∈ W.params.items := fun q hq =>
    (List.mem_or_eq_of_mem_set hq).symm
  have hnames : ps.items.map (fun q => q.name.val) = W.params.items.map fun q => q.name.val := by
    rw [hps, List.map_set]
    exact set_eq_self (by rw [List.getElem?_map, hi]; rfl)
  have hW' : (W.withParams ps).Ok := by
    refine World.ok_withParams hc (hW.params.of_le ?_) (hnames ▸ hW.names) fun q hq => ?_
    · rw [List.length_set]; exact hW.params.length
    · rcases hmem q hq with rfl | hq
      · exact hW.nonempty p (List.mem_of_getElem? hi)
      · exact hW.nonempty q hq
  have hobs : (W.withParams ps).obs = { W.obs with params := put name v.val W.obs.params } := by
    rw [put_eq_set (by rw [World.findParam_obs, hf]; rfl)]
    simp only [World.obs, World.withParams, World.regs, hps, List.map_set, hname, id_eq]
  have hstrs : {v.cell} + W.cells.strs = {p.value.cell} + (World.cells (W.withParams ps)).strs := by
    simp only [World.cells, World.withParams, paramStrs, hps, bag_perm hold, bag_perm (hnew _),
      bag_cons]
    abel
  refine (freeStr_spec hm hstrs).seq fun _ m₁ hm₁ => ?_
  refine (storeWorld_spec (W := W.withParams ps) hm₁ hW' rfl rfl rfl rfl).seq fun _ m₂ hm₂ => ?_
  exact Safe.pure ⟨rfl, _, b, hm₂, hW', .refl b, hobs, rfl⟩

/-- A new parameter goes to the end of an array with room for it. -/
theorem appendParam_spec {W : World} {n v : Str} {m : Mode Tab View}
    (hm : At .wr { W.cells with strs := {v.cell} + ({n.cell} + W.cells.strs) } b m) (hW : W.Ok)
    (hc : W.conn = none) (hlt : W.params.items.length < W.params.capacity)
    (hz : zstr (some n.val) = false) (hf : W.findParam n.val = none) :
    logic.Safe S (call (.storeKt { W.kt with
      params := { W.params with items := W.params.items ++ [⟨n, v⟩] } })) m
      fun _ m' => Ends b m' fun W' =>
        W'.obs = { W.obs with params := put n.val v.val W.obs.params } ∧ W'.leaked = W.leaked := by
  set ps : CArray KafkaParam := { W.params with items := W.params.items ++ [⟨n, v⟩] } with hps
  have hW' : (W.withParams ps).Ok := by
    refine World.ok_withParams hc (hW.params.of_le (by simpa using Nat.succ_le_of_lt hlt)) ?_
      fun q hq => ?_
    · simp only [hps, List.map_append, List.map_cons, List.map_nil]
      refine List.nodup_append.mpr ⟨hW.names, List.nodup_singleton _, fun x hx y hy e => ?_⟩
      obtain ⟨q, hq, rfl⟩ := List.mem_map.mp hx
      rw [List.mem_singleton.mp hy] at e
      exact World.findParam_none hf q hq e
    · rcases List.mem_append.mp hq with hq | hq
      · exact hW.nonempty q hq
      · rw [List.mem_singleton.mp hq]; exact hz
  have hobs : (W.withParams ps).obs = { W.obs with params := put n.val v.val W.obs.params } := by
    rw [put_eq_append (by rw [World.findParam_obs, hf]; rfl)]
    simp [World.obs, World.withParams, World.regs, hps]
  have hstrs : {v.cell} + ({n.cell} + W.cells.strs) = (World.cells (W.withParams ps)).strs := by
    simp only [World.cells, World.withParams, paramStrs, hps, bag_append, bag_cons, bag_nil]
    abel
  rw [hstrs] at hm
  refine (storeWorld_spec (W := W.withParams ps) hm hW' rfl rfl rfl rfl).mono fun _ m₂ hm₂ => ?_
  exact ⟨_, b, hm₂, hW', .refl b, hobs, rfl⟩

/-- A world with its parameter array grown to `a`. -/
theorem World.ok_grownParams {W : World} (hW : W.Ok) (hc : W.conn = none) {a : CArray KafkaParam}
    (ha : a.Ok paramSize) (hi : a.items = W.params.items) :
    (W.withParams a).Ok ∧ W.Spare (W.withParams a) :=
  ⟨World.ok_withParams hc ha (hi ▸ hW.names) (hi ▸ hW.nonempty),
    ⟨hi, (World.Spare.refl W).conn, rfl, rfl⟩⟩

theorem kafkaTableSetParamLocked_spec {W : World} {name value : CStr} (hm : At .wr W.cells b m)
    (hW : W.Ok) (hz : zstr (some name) = false) :
    logic.Safe S (kafkaTableSetParamLocked name value) m fun r m' => Ends b m' fun W' =>
      ParamSet W name value r W' ∧ W'.leaked = W.leaked ∧
        (r ≠ .ok () → W.conn.isSome ∨ MayFail S) := by
  have hfail : ∀ (W' : World) (m' : Mode Tab View) (text : String), At .wr W'.cells b m' → W'.Ok →
      W.Spare W' → (W.conn.isSome ∨ MayFail S) → Ends b m' fun W' =>
        ParamSet W name value (.error text) W' ∧ W'.leaked = W.leaked ∧
          ((.error text : Except String Unit) ≠ .ok () → W.conn.isSome ∨ MayFail S) := by
    intro W' m' text hm' hW' hs hf
    exact ⟨W', b, hm', hW', .refl b, ⟨fun e => (by cases e), fun _ => hs⟩, hs.leaked, fun _ => hf⟩
  have hok : ∀ (W₀ : World) (m' : Mode Tab View), W.conn = none → W.Spare W₀ →
      (Ends b m' fun W' =>
        W'.obs = { W₀.obs with params := put name value W₀.obs.params } ∧ W'.leaked = W₀.leaked) →
      Ends b m' fun W' => ParamSet W name value (.ok ()) W' ∧ W'.leaked = W.leaked ∧
        ((.ok () : Except String Unit) ≠ .ok () → W.conn.isSome ∨ MayFail S) := by
    intro W₀ m' hc hs h
    refine h.mono (.refl b) ?_
    rintro W' ⟨ho', hl'⟩
    exact ⟨⟨fun _ => ⟨hc, by rw [ho', hs.obs]⟩, fun e => absurd rfl e⟩, hl'.trans hs.leaked,
      fun e => absurd rfl e⟩
  refine (loadKt_spec hm (by decide)).seq ?_
  rintro _ m ⟨rfl, rfl⟩
  rcases Option.eq_none_or_eq_some W.conn with hc | ⟨conn, hc⟩
  swap
  · have hk : W.cells.kt.producer.isSome = true := by simp [World.cells, World.kt, hc]
    rw [hk, if_pos rfl]
    exact Safe.pure (hfail W m _ hm hW (.refl W) (Or.inl (by rw [hc]; rfl)))
  · have hk : W.cells.kt.producer.isSome = false := by simp [World.cells, World.kt, hc]
    rw [hk, if_neg (by decide)]
    refine (findParam_spec hm (by decide)).seq ?_
    rintro _ m ⟨rfl, rfl⟩
    cases hf : W.findParam name with
    | some x =>
        obtain ⟨i, p⟩ := x
        refine (strdup_spec hm).seq ?_
        rintro _ m₁ (⟨rfl, hmf, hm₁⟩ | ⟨v, rfl, rfl, hm₁⟩)
        · exact Safe.pure (hfail W m₁ _ hm₁ hW (.refl W) (Or.inr hmf))
        · refine (replaceParam_spec hm₁ hW hc hf).mono ?_
          rintro _ m₂ ⟨rfl, hm₂⟩
          exact hok W m₂ hc (.refl W) hm₂
    | none =>
        have harr : W.cells.arrays = W.params.mem paramSize + W.conn.elim 0 Conn.arrays := rfl
        refine (kafkaTableGrow_spec hm (by decide) (by decide) hW.params harr).seq ?_
        rintro _ m₁ (⟨rfl, hmf, hm₁⟩ | ⟨a, rfl, hitems, ha, hlt, hm₁⟩)
        · exact Safe.pure (hfail W m₁ _ hm₁ hW (.refl W) (Or.inr hmf))
        obtain ⟨hW₁, hspare⟩ := World.ok_grownParams hW hc ha hitems
        have hcells : { W.cells with
            arrays := a.mem paramSize + W.conn.elim 0 Conn.arrays, kt := (W.withParams a).kt } =
            (W.withParams a).cells := by
          ext1 <;> simp only [World.cells, World.withParams, hitems]
        have hstore : logic.Safe S (call (.storeKt { W.cells.kt with params := a })) m₁ fun _ =>
            At .wr (W.withParams a).cells b := by
          refine (storeWorld_spec hm₁ hW₁ rfl rfl rfl rfl).mono fun _ m₂ hm₂ => ?_
          exact hm₂.cast hcells
        refine hstore.seq fun _ m₂ hm₂ => ?_
        refine (strdup_any hm₂).seq ?_
        rintro dupname m₃ ⟨hdn, hvn, hm₃⟩
        refine (strdup_any hm₃).seq ?_
        rintro dupvalue m₄ ⟨hdv, hvv, hm₄⟩
        -- the strings that there are are given back
        have hundo : MayFail S → logic.Safe S (do
            safeFreeStr dupname
            safeFreeStr dupvalue
            pure (.error "Out of memory")) m₄ fun r m' => Ends b m' fun W' =>
            ParamSet W name value r W' ∧ W'.leaked = W.leaked ∧
              (r ≠ .ok () → W.conn.isSome ∨ MayFail S) := fun hmf => by
          have hboth : strCell dupvalue + (strCell dupname + (W.withParams a).cells.strs) =
              strCell dupname + (strCell dupvalue + (W.withParams a).cells.strs) := by abel
          refine (safeFreeStr_spec hm₄ hboth).seq fun _ m₅ hm₅ => ?_
          refine (safeFreeStr_spec hm₅ rfl).seq fun _ m₆ hm₆ => ?_
          exact Safe.pure (hfail _ m₆ _ hm₆ hW₁ hspare (Or.inr hmf))
        cases dupname with
        | none => exact hundo (hdn rfl)
        | some n =>
            cases dupvalue with
            | none => exact hundo (hdv rfl)
            | some v =>
                obtain rfl := hvn n rfl
                obtain rfl := hvv v rfl
                have hlen : (W.withParams a).params.items.length < a.capacity := by
                  simpa only [World.withParams, hitems] using hlt
                have hf' : (W.withParams a).findParam n.val = none := by
                  simpa only [World.findParam, World.withParams, hitems] using hf
                refine (appendParam_spec hm₄ hW₁ hc hlen hz hf').seq fun _ m₅ hm₅ => ?_
                exact Safe.pure (hok (W.withParams a) m₅ hc hspare hm₅)

/-- What `kafka_table_unset_param` does under the lock: the last parameter moves into the hole. -/
structure ParamUnset (W : World) (name : CStr) (r : Int) (W' : World) : Prop where
  ok : r = 0 → W.conn = none ∧ ∃ i x, firstIdx (fun x => decide (x.1 = name)) 0 W.obs.params =
    some (i, x) ∧ W'.obs = { W.obs with params := swapRemove i W.obs.params }
  fail : r ≠ 0 → r = -1 ∧ W.Spare W' ∧ (W.conn.isSome ∨ ∀ x ∈ W.obs.params, x.1 ≠ name)

theorem freeParam_spec {p : KafkaParam} {rest : Multiset (Nat × CStr)} (hm : At .wr c b m)
    (hs : c.strs = {p.name.cell} + ({p.value.cell} + rest)) :
    logic.Safe S (freeParam p) m fun _ => At .wr { c with strs := rest } b := by
  refine (freeStr_spec hm hs).seq fun _ m₁ hm₁ => ?_
  have hvalue := freeStr_spec (S := S) hm₁ rfl
  exact hvalue

theorem kafkaTableUnsetParamLocked_spec {W : World} {name : CStr} (hm : At .wr W.cells b m)
    (hW : W.Ok) :
    logic.Safe S (kafkaTableUnsetParamLocked name) m fun r m' => Ends b m' fun W' =>
      ParamUnset W name r W' ∧ W'.leaked = W.leaked := by
  refine (loadKt_spec hm (by decide)).seq ?_
  rintro _ m ⟨rfl, rfl⟩
  rcases Option.eq_none_or_eq_some W.conn with hc | ⟨conn, hc⟩
  swap
  · have hk : W.cells.kt.producer.isSome = true := by simp [World.cells, World.kt, hc]
    rw [hk, if_pos rfl]
    refine Safe.pure ⟨W, b, hm, hW, .refl b,
      ⟨fun e => by simp at e, fun _ => ⟨rfl, .refl W, ?_⟩⟩, rfl⟩
    exact Or.inl (by rw [hc]; rfl)
  have hk : W.cells.kt.producer.isSome = false := by simp [World.cells, World.kt, hc]
  rw [hk, if_neg (by decide)]
  refine (findParam_spec hm (by decide)).seq ?_
  rintro _ m ⟨rfl, rfl⟩
  cases hf : W.findParam name with
  | none =>
      refine Safe.pure ⟨W, b, hm, hW, .refl b,
        ⟨fun e => by simp at e, fun _ => ⟨rfl, .refl W, ?_⟩⟩, rfl⟩
      refine Or.inr fun x hx => ?_
      obtain ⟨p, hp, rfl⟩ := List.mem_map.mp hx
      exact World.findParam_none hf p hp
  | some x =>
      obtain ⟨i, p⟩ := x
      obtain ⟨hi, rfl⟩ := List.getElem?_eq_some_iff.mp (World.findParam_some hf).1
      have hperm := perm_cons_swapRemove hi
      set ps : CArray KafkaParam :=
        { W.params with items := swapRemove i W.params.items } with hps
      have hW' : (W.withParams ps).Ok := by
        refine World.ok_withParams hc (hW.params.of_le ?_) ?_ fun q hq => ?_
        · have h₁ := length_swapRemove hi
          have h₂ := hW.params.length
          omega
        · exact (List.nodup_cons.mp
            ((hperm.map fun p : KafkaParam => p.name.val).nodup_iff.mp hW.names)).2
        · exact hW.nonempty q (mem_of_mem_swapRemove hi hq)
      have hstrs : W.cells.strs = {(W.params.items[i]).name.cell} +
          ({(W.params.items[i]).value.cell} + (World.cells (W.withParams ps)).strs) := by
        simp only [World.cells, World.withParams, paramStrs, hps, bag_perm hperm, bag_cons]
        abel
      refine (freeParam_spec hm hstrs).seq fun _ m₁ hm₁ => ?_
      refine (storeWorld_spec (W := W.withParams ps) hm₁ hW' rfl rfl rfl rfl).seq fun _ m₂ hm₂ => ?_
      refine Safe.pure ⟨_, b, hm₂, hW', .refl b, ⟨fun _ => ⟨hc, i, (W.params.items[i]).pair,
        ?_, ?_⟩, fun e => absurd rfl e⟩, rfl⟩
      · rw [World.findParam_obs, hf]; rfl
      · simp only [World.obs, World.withParams, World.regs, hps, map_swapRemove]

end TrigEmit
