import TrigEmitKafka.Rules.Engine

/-!
# Rules — the helpers of `kafka-table.c`

Growth, the two searches, reaping and removal, from world to world.
-/

namespace TrigEmit

open Store (Heap)
open Conc (Held Logic Mode Setting Prog)
open Conc.Logic (Safe)
open Slots (firstIdx swapRemove perm_cons_swapRemove length_swapRemove map_swapRemove
  mem_of_mem_swapRemove)

variable {S : Setting Tab View Ans} {m : Mode Tab View} {h : Held} {c : Cells} {b : View}

/-- A critical section of a writer leaves a well-formed world, and `P` holds of it. -/
def Ends (b : View) (m' : Mode Tab View) (P : World → Prop) : Prop :=
  ∃ (W' : World) (b' : View), At .wr W'.cells b' m' ∧ W'.Ok ∧ b.Same b' ∧ P W'

theorem Ends.mono {b b₀ : View} {m' : Mode Tab View} {P Q : World → Prop} (h : Ends b m' P)
    (hb : b₀.Same b) (hPQ : ∀ W', P W' → Q W') : Ends b₀ m' Q := by
  obtain ⟨W', b', hm, hW, hs, hP⟩ := h
  exact ⟨W', b', hm, hW, hb.trans hs, hPQ W' hP⟩

/-! ### Growth -/

/-- The capacity `kafka_table_grow` asks for. -/
def CArray.nextCapacity {α : Type} (a : CArray α) : Nat :=
  if a.capacity = 0 then initialSlots else sizeT (a.capacity * 2)

/-- An array that grows by doubling never computes a size that wraps. -/
theorem sizeT_double {cap itemsize : Nat} (hs : 0 < itemsize) (hb : cap * itemsize ≤ ptrdiffMax) :
    sizeT (cap * 2) = cap * 2 ∧ sizeT (cap * 2 * itemsize) = cap * 2 * itemsize := by
  have hcap : cap ≤ cap * itemsize := Nat.le_mul_of_pos_right cap hs
  have hmul : cap * 2 * itemsize = cap * itemsize * 2 := Nat.mul_right_comm _ _ _
  unfold ptrdiffMax at hb
  exact ⟨Nat.mod_eq_of_lt (by omega), Nat.mod_eq_of_lt (by omega)⟩

/-- After growth there is room for one more element. -/
theorem kafkaTableGrow_spec {α : Type} {a : CArray α} {itemsize : Nat}
    {rest : Multiset (Nat × Nat)} (hm : At .wr c b m) (hs : 0 < itemsize) (hs' : itemsize ≤ paramSize)
    (ha : a.Ok itemsize) (hc : c.arrays = a.mem itemsize + rest) :
    logic.Safe S (kafkaTableGrow a itemsize) m fun r m' =>
      (r = none ∧ MayFail S ∧ At .wr c b m') ∨
      ∃ a', r = some a' ∧ a'.items = a.items ∧ a'.Ok itemsize ∧
        a.items.length < a'.capacity ∧
        At .wr { c with arrays := a'.mem itemsize + rest } b m' := by
  unfold kafkaTableGrow
  by_cases hlt : a.items.length < a.capacity
  · rw [if_pos hlt]
    exact Safe.pure (Or.inr ⟨a, rfl, rfl, ha, hlt, hm.cast (by rw [← hc])⟩)
  rw [if_neg hlt]
  obtain ⟨newcap, hnew, hcap, hsize⟩ : ∃ newcap,
      (if a.capacity = 0 then initialSlots else sizeT (a.capacity * 2)) = newcap ∧
      a.items.length < newcap ∧ sizeT (newcap * itemsize) = newcap * itemsize := by
    have hle := ha.length
    by_cases h0 : a.capacity = 0
    · refine ⟨initialSlots, if_pos h0, by unfold initialSlots; omega, Nat.mod_eq_of_lt ?_⟩
      unfold initialSlots; unfold paramSize at hs'; omega
    · obtain ⟨h₁, h₂⟩ := sizeT_double hs ha.bound
      exact ⟨a.capacity * 2, by rw [if_neg h0, h₁], by omega, h₂⟩
  dsimp only
  rw [hnew, hsize]
  refine (realloc_spec hm hc).seq ?_
  rintro _ m₁ (⟨rfl, hf, hm₁⟩ | ⟨p, rfl, hn, hm₁⟩)
  · exact Safe.pure (Or.inl ⟨rfl, hf, hm₁⟩)
  · refine Safe.pure (Or.inr ⟨_, rfl, rfl, ⟨Nat.le_of_lt hcap, ?_, hn⟩, hcap, hm₁⟩)
    exact ⟨fun e => (by cases e), fun e => absurd e (by simp only; omega)⟩

/-! ### Searches -/

/-- The search by name finds the first topic of that name. -/
theorem findTopic_spec {W : World} {topic : CStr} (hm : At h W.cells b m) (hh : h ≠ .none) :
    logic.Safe S (Prog.scan (topicIs topic) 0 W.kt.topics.items) m fun r m' =>
      r = (W.findTopic topic).map (Prod.map id (·.tt)) ∧ m' = m := by
  rw [World.kt_topics]
  refine Prog.wp_scan (f := fun r : Reg => decide (r.name.val = topic)) W.regs 0
    (fun r hr P hP => ?_) ⟨rfl, rfl⟩
  cases hc : W.conn with
  | none => rw [World.regs, hc] at hr; cases hr
  | some conn =>
      rw [World.regs_conn hc] at hr
      refine (loadTopic_spec hm hh (World.reg_mem hc hr)).seq ?_
      rintro _ _ ⟨rfl, rfl⟩
      refine (readStr_spec hm hh (World.reg_str_mem hc hr)).seq ?_
      rintro _ _ ⟨rfl, rfl⟩
      exact Safe.pure hP

theorem kafkaTableFindLocked_spec {W : World} {topic : Option CStr} (hm : At h W.cells b m)
    (hh : h ≠ .none) :
    logic.Safe S (kafkaTableFindLocked topic) m fun r m' =>
      r = (topic.bind W.findTopic).map (·.2.tt) ∧ m' = m := by
  cases topic with
  | none => exact Safe.pure ⟨rfl, rfl⟩
  | some topic =>
      refine (loadKt_spec hm hh).seq ?_
      rintro _ _ ⟨rfl, rfl⟩
      refine (findTopic_spec hm hh).seq ?_
      rintro _ _ ⟨rfl, rfl⟩
      refine Safe.pure ⟨?_, rfl⟩
      rw [Option.map_map]; rfl

theorem findParam_spec {W : World} {name : CStr} (hm : At h W.cells b m) (hh : h ≠ .none) :
    logic.Safe S (Prog.scan (paramIs name) 0 W.params.items) m fun r m' =>
      r = W.findParam name ∧ m' = m := by
  rw [← List.map_id W.params.items]
  refine Prog.wp_scan (f := fun p : KafkaParam => decide (p.name.val = name)) W.params.items 0
    (fun p hp P hP => ?_) ⟨?_, rfl⟩
  · refine (readStr_spec hm hh (World.param_mem hp).1).seq ?_
    rintro _ _ ⟨rfl, rfl⟩
    exact Safe.pure hP
  · rw [World.findParam]
    cases firstIdx _ 0 W.params.items <;> rfl

/-! ### Writing `kt` back -/

theorem World.kt_fits {W : World} (hW : W.Ok) {arrays : Multiset (Nat × Nat)}
    (ha : W.cells.arrays ≤ arrays) :
    W.kt.params.Fits arrays paramSize ∧ W.kt.topics.Fits arrays topicSize ∧
      W.kt.retired.Fits arrays topicSize := by
  refine ⟨hW.params.fits ((Multiset.le_add_right _ _).trans ha), ?_⟩
  cases hc : W.conn with
  | none =>
      simp only [World.kt, hc, Option.elim]
      exact ⟨Or.inl rfl, Or.inl rfl⟩
  | some conn =>
      simp only [World.cells, hc, Option.elim, Conn.arrays] at ha
      simp only [World.kt, hc, Option.elim]
      have ht : conn.topics.mem topicSize ≤ arrays :=
        (Multiset.le_add_right _ _).trans ((Multiset.le_add_left _ _).trans ha)
      have hr : conn.retired.mem topicSize ≤ arrays :=
        (Multiset.le_add_left _ _).trans ((Multiset.le_add_left _ _).trans ha)
      exact ⟨((hW.conn conn hc).topics.map _).fits ht, ((hW.conn conn hc).retired.map _).fits hr⟩

/-- The `kt` of a well-formed world may be stored where its arrays and its producer are. -/
theorem storeWorld_spec {W : World} {k : KafkaTables} (hm : At .wr c b m) (hW : W.Ok)
    (hk : k = W.kt) (ha : c.arrays = W.cells.arrays) (hr : c.rks = W.cells.rks)
    (hh : c.handed = W.cells.handed) :
    logic.Safe S (call (.storeKt k)) m fun _ => At .wr { c with kt := W.kt } b := by
  subst hk
  obtain ⟨hf₁, hf₂, hf₃⟩ := World.kt_fits hW (le_of_eq ha.symm)
  refine storeKt_spec hm hf₁ hf₂ hf₃ fun tk htk => Or.inr ?_
  cases hc : W.conn with
  | none => simp [World.kt, hc] at htk
  | some conn =>
      obtain rfl : conn.tk = tk := by simpa [World.kt, hc] using htk
      have hconf := (hW.conn conn hc).conf
      refine ⟨conn.brokers.val, ?_, fun v rk r _ _ hrr => ?_⟩
      · rw [hh]; exact (hW.last conn hc).trans (congrArg some hconf)
      · rw [hr, World.cells, hc] at hrr
        obtain ⟨-, rfl⟩ := Prod.mk.inj (Multiset.mem_singleton.mp hrr)
        exact hconf

/-! ### Reaping and removal -/

/-- An answer of no drains the view. -/
theorem outqPending_spec {tk rk : Nat} {v : TekKafka} {x : RdKafka} (hm : At h c b m)
    (hh : h ≠ .none) (hp : (tk, v) ∈ c.producers) (hrk : v.rk = some rk) (hr : (rk, x) ∈ c.rks) :
    logic.Safe S (outqPending (some tk)) m fun r m' =>
      (r = false ∧ At h c b.drained m') ∨ (r = true ∧ At h c b m') := by
  refine (loadTk_spec hm hh hp).seq ?_
  rintro v _ ⟨rfl, rfl⟩
  simp only [hrk]
  refine (rdKafkaOutqLen_spec hm hh hr).seq ?_
  rintro (n : Nat) m₁ (⟨rfl, hm₁⟩ | ⟨hn, hm₁⟩)
  · exact Safe.pure (Or.inl ⟨rfl, hm₁⟩)
  · exact Safe.pure (Or.inr ⟨decide_eq_true hn, hm₁⟩)

/-- A world after reaping: the retired records are all gone. -/
def Conn.reaped (c : Conn) : Conn := { c with retired := { c.retired with items := [] } }

theorem World.Ok.reaped {W : World} {c : Conn} (hW : W.Ok) (hc : W.conn = some c) :
    World.Ok { W with conn := some c.reaped } where
  params := hW.params
  names := hW.names
  nonempty := hW.nonempty
  conn c' e := by
    cases e
    have h := hW.conn c hc
    exact ⟨h.conf, h.topics, h.retired.of_le (Nat.zero_le _), h.names, h.nonempty⟩
  last c' e := by cases e; exact hW.last c hc
  flushed c' e r hr := by cases e; cases hr

/-- Reaping frees every retired record or none. -/
theorem kafkaTableReapRetiredLocked_spec {W : World} (hm : At .wr W.cells b m) (hW : W.Ok) :
    logic.Safe S kafkaTableReapRetiredLocked m fun _ m' =>
      Ends b m' W.Spare := by
  refine (loadKt_spec hm (by decide)).seq ?_
  rintro _ _ ⟨rfl, rfl⟩
  by_cases he : W.kt.retired.items.isEmpty = true
  · rw [show W.cells.kt = W.kt from rfl, if_pos he]
    exact Safe.pure ⟨W, b, hm, hW, .refl b, .refl W⟩
  rw [show W.cells.kt = W.kt from rfl, if_neg he]
  cases hc : W.conn with
  | none => simp [World.kt, hc, CArray.null] at he
  | some conn =>
      have hk : W.kt.producer = some conn.tk := by simp [World.kt, hc]
      rw [hk]
      refine (outqPending_spec hm (by decide) (World.producer_mem hc) rfl (World.rk_mem hc)).seq ?_
      rintro r m₁ (⟨rfl, hm₁⟩ | ⟨rfl, hm₁⟩)
      · have hret : W.kt.retired.items = conn.retired.items.map (·.tt) := by
          simp [World.kt, hc]
        rw [if_neg (by decide), hret]
        have hrec : W.cells.topics = bag Old.cell conn.retired.items +
            (bag (Reg.cell conn.tk) conn.topics.items + bag Old.cell W.leaked) := by
          simp only [World.cells, hc, Option.elim, Conn.records]; abel
        have hstr : W.cells.strs = bag (fun r => r.name.cell) conn.retired.items +
            (paramStrs W.params.items + {conn.brokers.cell} +
              bag (fun r => r.name.cell) conn.topics.items +
              bag (fun r => r.name.cell) W.leaked) := by
          simp only [World.cells, hc, Option.elim, Conn.strs]; abel
        refine (forEach_topicFree_spec conn.retired.items hm₁ hrec hstr (fun _ hp => hp)
          (hW.flushed conn hc)).seq fun _ m₂ hm₂ => ?_
        refine (storeWorld_spec hm₂ (hW.reaped hc) ?_ ?_ ?_ rfl).mono fun _ m₃ hm₃ => ?_
        · simp [World.kt, hc, Conn.reaped, CArray.map]
        · simp [World.cells, hc, Conn.arrays, Conn.reaped, CArray.mem]
        · simp [World.cells, hc, Conn.reaped]
        refine ⟨{ W with conn := some conn.reaped }, b.drained, hm₃.cast ?_, hW.reaped hc,
          b.same_drained, rfl, ?_, rfl, rfl⟩
        · ext1 <;> simp [World.cells, hc, Conn.reaped, Conn.strs, Conn.arrays, Conn.records,
            CArray.mem, Conn.producer, add_assoc]
        · rw [hc]
          exact .some ⟨rfl, rfl, Or.inr rfl⟩
      · rw [if_pos rfl]
        exact Safe.pure ⟨W, b, hm₁, hW, .refl b, .refl W⟩

/-- A connection without the topic at `i`. -/
def Conn.without (c : Conn) (i : Nat) : Conn :=
  { c with topics := { c.topics with items := swapRemove i c.topics.items } }

/-- The world after the topic at `i` was disposed: its record is still to be dealt with. -/
def World.without (W : World) (c : Conn) (i : Nat) (r : Reg) : World :=
  { W with conn := some (c.without i), disposed := r.tt :: W.disposed }

theorem World.Ok.without {W : World} {c : Conn} (hW : W.Ok) (hc : W.conn = some c) {i : Nat}
    {r : Reg} (hi : i < c.topics.items.length) : (W.without c i r).Ok where
  params := hW.params
  names := hW.names
  nonempty := hW.nonempty
  conn c' e := by
    cases e
    have h := hW.conn c hc
    have hlen := length_swapRemove hi
    have hperm := perm_cons_swapRemove hi
    refine ⟨h.conf, h.topics.of_le ?_, h.retired, ?_, fun r' hr' => ?_⟩
    · have := h.topics.length; omega
    · exact (List.nodup_cons.mp ((hperm.map fun r : Reg => r.name.val).nodup_iff.mp h.names)).2
    · exact h.nonempty r' (mem_of_mem_swapRemove hi hr')
  last c' e := by cases e; exact hW.last c hc
  flushed c' e r' hr' := by cases e; exact List.mem_cons_of_mem _ (hW.flushed c hc r' hr')

/-- The record is parked, in the array grown to `a`. -/
def Conn.park (c : Conn) (a : CArray Nat) (o : Old) : Conn :=
  { c with retired := ⟨a.ptr, c.retired.items ++ [o], a.capacity⟩ }

theorem World.Ok.parked {W : World} {c : Conn} {r : Old} {a : CArray Nat} (hW : W.Ok)
    (hc : W.conn = some c) (hr : r.tt ∈ W.disposed) (ha : a.Ok topicSize)
    (hlt : c.retired.items.length < a.capacity) :
    World.Ok { W with conn := some (c.park a r) } where
  params := hW.params
  names := hW.names
  nonempty := hW.nonempty
  conn c' e := by
    cases e
    have h := hW.conn c hc
    refine ⟨h.conf, h.topics, ha.of_le ?_, h.names, h.nonempty⟩
    simpa using Nat.succ_le_of_lt hlt
  last c' e := by cases e; exact hW.last c hc
  flushed c' e r' hr' := by
    cases e
    rcases List.mem_append.mp hr' with hr' | hr'
    · exact hW.flushed c hc r' hr'
    · cases List.mem_singleton.mp hr'
      exact hr

/-- The record at `i` is out of the table, and its handle is gone. -/
def World.detached (W : World) (c : Conn) (i : Nat) (r : Reg) : Cells :=
  { (W.without c i r).cells with
    topics := {(r.old c.tk).cell} + (W.without c i r).cells.topics
    strs := {r.name.cell} + (W.without c i r).cells.strs }

section remove

variable {W : World} {conn : Conn} {i : Nat} {r : Reg}

/-- What can be observed is that the topic is gone, whatever became of its record. -/
theorem World.obs_without (hc : W.conn = some conn) {c : Conn} {l : List Old}
    (hp : c.toProducer = conn.toProducer)
    (ht : c.topics.items = swapRemove i conn.topics.items) :
    World.obs { W with conn := some c, leaked := l, disposed := r.tt :: W.disposed } =
      { W.obs with topics := swapRemove i W.regs } := by
  simp [World.obs, World.regs, hc, hp, ht]

/-- The array without the topic is stored, and the record is disposed of. -/
theorem detach_spec {α : Type} {f : Unit → K α} {Q : α → Mode Tab View → Prop}
    (hm : At .wr W.cells b m) (hW : W.Ok) (hc : W.conn = some conn)
    (hr : conn.topics.items[i]? = some r)
    (hf : ∀ m', At .wr (W.detached conn i r) b m' → logic.Safe S (f ()) m' Q) :
    logic.Safe S (do
      call (.storeKt { W.cells.kt with
        topics := { W.cells.kt.topics with items := swapRemove i W.cells.kt.topics.items } })
      tekKafkaTopicDispose r.tt >>= f) m Q := by
  obtain ⟨hi, hget⟩ := List.getElem?_eq_some_iff.mp hr
  have hperm : conn.topics.items.Perm (r :: swapRemove i conn.topics.items) :=
    hget ▸ perm_cons_swapRemove hi
  have hstore : logic.Safe S (call (.storeKt { W.cells.kt with
      topics := { W.cells.kt.topics with items := swapRemove i W.cells.kt.topics.items } })) m
      fun _ => At .wr { W.cells with kt := (W.without conn i r).kt } b := by
    refine storeWorld_spec hm (hW.without (r := r) hc hi) ?_ ?_ ?_ rfl
    · simp [World.cells, World.kt, World.without, Conn.without, hc, CArray.map, map_swapRemove]
    · simp [World.cells, World.without, Conn.without, hc, Conn.arrays, CArray.mem]
    · simp [World.cells, World.without, Conn.without, hc]
  refine hstore.seq fun _ m₁ hm₁ => ?_
  have htop : W.cells.topics = {r.cell conn.tk} + (W.without conn i r).cells.topics := by
    simp only [World.cells, World.without, Conn.without, hc, Option.elim, Conn.records,
      bag_perm hperm, bag_cons, add_assoc]
  have hkts : W.cells.rkts = {r.handle conn.rk} + (W.without conn i r).cells.rkts := by
    simp only [World.cells, World.without, Conn.without, hc, Option.elim, bag_perm hperm, bag_cons]
  have hstrs : W.cells.strs = {r.name.cell} + (W.without conn i r).cells.strs := by
    simp only [World.cells, World.without, Conn.without, hc, Option.elim, Conn.strs,
      bag_perm hperm, bag_cons]
    abel
  refine (tekKafkaTopicDispose_spec hm₁ htop hkts).seq fun _ m₂ hm₂ => hf m₂ (hm₂.cast ?_)
  ext1 <;> simp only [World.detached, hstrs] <;>
    simp [World.cells, World.without, Conn.without, hc, Conn.arrays, CArray.mem, Conn.producer]

/-- The record is parked, or leaked where there is no room for it. -/
theorem park_spec (hm : At .wr (W.detached conn i r) b m) (hW : (W.without conn i r).Ok)
    (hc : W.conn = some conn) :
    logic.Safe S (do
      match ← kafkaTableGrow W.cells.kt.retired topicSize with
      | some retired =>
          call (.storeKt { W.cells.kt with
            topics := { W.cells.kt.topics with items := swapRemove i W.cells.kt.topics.items }
            retired := { retired with items := retired.items ++ [r.tt] } })
      | none => call (.leak r.tt)) m fun _ m' => Ends b m' fun W' =>
        W'.obs = { W.obs with topics := swapRemove i W.regs } ∧
          (W'.leaked = W.leaked ∨ MayFail S) := by
  have hc₁ : (W.without conn i r).conn = some (conn.without i) := rfl
  have hret := (hW.conn _ hc₁).retired
  have harr : (W.detached conn i r).arrays = (conn.retired.map (·.tt)).mem topicSize +
      (W.params.mem paramSize + conn.topics.mem topicSize) := by
    simp only [World.detached, World.cells, World.without, Option.elim, Conn.arrays, Conn.without,
      CArray.mem, CArray.map_ptr, CArray.map_capacity]
    abel
  have hktr : W.cells.kt.retired = conn.retired.map (·.tt) := by
    simp [World.cells, World.kt, hc]
  rw [hktr]
  refine (kafkaTableGrow_spec hm (by decide) (by decide) (hret.map _) harr).seq ?_
  rintro _ m₁ (⟨rfl, hf, hm₁⟩ | ⟨a, rfl, hitems, ha, hlt, hm₁⟩)
  · -- it cannot be parked: it is leaked
    refine (leak_spec hm₁ (mem_head _ _)).mono fun _ m₂ hm₂ => ?_
    refine ⟨{ W.without conn i r with leaked := r.old conn.tk :: W.leaked }, b, hm₂.cast ?_, ?_,
      .refl b, World.obs_without hc rfl rfl, Or.inr hf⟩
    · ext1 <;> simp only [World.detached, World.cells, World.without, Option.elim, bag_cons,
        List.map_cons, Reg.old, World.kt, Option.map] <;> abel
    · exact ⟨hW.params, hW.names, hW.nonempty, hW.conn, hW.last, hW.flushed⟩
  · -- it is parked
    have hW₂ : World.Ok { W.without conn i r with
        conn := some ((conn.without i).park a (r.old conn.tk)) } := by
      refine hW.parked hc₁ List.mem_cons_self ha ?_
      simpa using hlt
    refine (storeWorld_spec hm₁ hW₂ ?_ ?_ ?_ rfl).mono fun _ m₂ hm₂ => ?_
    · simp [World.kt, World.without, Conn.without, Conn.park, World.cells, hc, CArray.map,
        map_swapRemove, hitems, Reg.old]
    · simp only [World.cells, World.without, Option.elim, Conn.arrays, Conn.without, Conn.park,
        CArray.mem]
      abel
    · simp [World.detached, World.cells, World.without, Conn.without, Conn.park]
    refine ⟨_, b, hm₂.cast ?_, hW₂, .refl b, World.obs_without hc rfl rfl, Or.inl rfl⟩
    ext1 <;> simp only [World.detached, World.cells, World.without, Option.elim, Conn.park,
      Conn.without, Conn.strs, Conn.arrays, Conn.records, Conn.producer, CArray.mem, bag_append,
      bag_cons, bag_nil, add_zero, Reg.old] <;> abel

/-- Removal takes exactly the topic at `i` out of the table; its record is freed, parked, or
leaked where it cannot be parked. -/
theorem kafkaTableRemoveLocked_spec (hm : At .wr W.cells b m) (hW : W.Ok) (hc : W.conn = some conn)
    (hr : conn.topics.items[i]? = some r) :
    logic.Safe S (kafkaTableRemoveLocked i) m fun _ m' => Ends b m' fun W' =>
      W'.obs = { W.obs with topics := swapRemove i W.regs } ∧
        (W'.leaked = W.leaked ∨ MayFail S) := by
  obtain ⟨hi, -⟩ := List.getElem?_eq_some_iff.mp hr
  have hW₁ : (W.without conn i r).Ok := hW.without hc hi
  refine (loadKt_spec hm Held.noConfusion).seq ?_
  rintro _ m ⟨rfl, rfl⟩
  have hidx : W.cells.kt.topics.items[i]? = some r.tt := by
    rw [show W.cells.kt = W.kt from rfl, World.kt_topics, World.regs_conn hc, List.getElem?_map, hr]
    rfl
  simp only [hidx]
  refine detach_spec hm hW hc hr fun m₁ hm₁ => ?_
  have hk : W.cells.kt.producer = some conn.tk := by simp [World.cells, World.kt, hc]
  have hc₁ : (W.without conn i r).conn = some (conn.without i) := rfl
  have hpending := outqPending_spec (S := S) hm₁ Held.noConfusion (World.producer_mem hc₁) rfl
    (World.rk_mem hc₁)
  rw [show (conn.without i).tk = conn.tk from rfl, ← hk] at hpending
  refine hpending.seq ?_
  rintro _ m₂ (⟨rfl, hm₂⟩ | ⟨rfl, hm₂⟩)
  · -- nothing is in flight: the record is freed
    refine (tekKafkaTopicFree_spec (r := r.old conn.tk) hm₂ rfl rfl (fun h => h)
      (Or.inl List.mem_cons_self)).mono fun _ m₃ hm₃ => ?_
    exact ⟨W.without conn i r, b.drained, hm₃, hW₁, b.same_drained, World.obs_without hc rfl rfl,
      Or.inl rfl⟩
  · exact park_spec hm₂ hW₁ hc

end remove

end TrigEmit
