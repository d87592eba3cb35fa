import TrigEmitKafka.Rules.World

/-!
# Rules — the functions of `kafka-engine.c`

One rule for each, from the cells it needs to the cells it leaves.
-/

namespace TrigEmit

open Store (Heap)
open Conc (Held Logic Mode Setting Prog)
open Conc.Logic (Safe)

variable {S : Setting Tab View Ans} {m : Mode Tab View} {h : Held} {c : Cells} {b : View}

/-! ### Topic records -/

theorem tekKafkaTopicFree_spec {r : Old} {rest : Multiset (Nat × TekTopic)}
    {srest : Multiset (Nat × CStr)} (hm : At .wr c b m) (ht : c.topics = {r.cell} + rest)
    (hs : c.strs = {r.name.cell} + srest) (hn : ¬ b.named r.tt)
    (hd : r.tt ∈ c.disposed ∨ ∀ x ∈ b.acc, x.tt ≠ r.tt) :
    logic.Safe S (tekKafkaTopicFree r.tt) m fun _ =>
      At .wr { c with topics := rest, strs := srest } b := by
  have hmem : r.cell ∈ c.topics := ht ▸ mem_head _ _
  refine (loadTopic_spec hm (by decide) hmem).seq ?_
  rintro _ _ ⟨rfl, rfl⟩
  refine (freeStr_spec hm hs).seq fun _ m₁ hm₁ => ?_
  exact freeTopic_spec hm₁ ht rfl hn hd

/-- A list of records is freed one after another. -/
theorem forEach_topicFree_spec (rs : List Old) {rest : Multiset (Nat × TekTopic)}
    {srest : Multiset (Nat × CStr)} {m : Mode Tab View} {c : Cells} (hm : At .wr c b m)
    (ht : c.topics = bag Old.cell rs + rest)
    (hs : c.strs = bag (fun r => r.name.cell) rs + srest) (hn : ∀ p, ¬ b.named p)
    (hd : ∀ r ∈ rs, r.tt ∈ c.disposed) :
    logic.Safe S (Prog.forEach tekKafkaTopicFree (rs.map (·.tt))) m fun _ =>
      At .wr { c with topics := rest, strs := srest } b := by
  induction rs generalizing m c with
  | nil =>
      rw [bag_nil, zero_add] at ht hs
      subst ht hs
      exact Safe.pure hm
  | cons r rs ih =>
      rw [bag_cons, add_assoc] at ht hs
      refine (tekKafkaTopicFree_spec hm ht hs (hn _)
        (Or.inl (hd r List.mem_cons_self))).seq fun _ m₁ hm₁ => ?_
      have hrest := ih hm₁ rfl rfl fun r' hr' => hd r' (List.mem_cons_of_mem _ hr')
      exact hrest

theorem tekKafkaTopicDispose_spec {tk : Nat} {r : Reg} {k : RdKafkaTopic}
    {rest : Multiset (Nat × TekTopic)} {krest : Multiset (Nat × RdKafkaTopic)}
    (hm : At .wr c b m) (ht : c.topics = {r.cell tk} + rest)
    (hk : c.rkts = {(r.rkt, k)} + krest) :
    logic.Safe S (tekKafkaTopicDispose r.tt) m fun _ => At .wr
      { c with topics := {(r.old tk).cell} + rest, rkts := krest, disposed := r.tt :: c.disposed }
      b := by
  have hmem : r.cell tk ∈ c.topics := ht ▸ mem_head _ _
  refine (loadTopic_spec hm (by decide) hmem).seq ?_
  rintro _ _ ⟨rfl, rfl⟩
  refine (rdKafkaTopicDestroy_spec hm hk).seq fun _ m₁ hm₁ => ?_
  refine (storeTopic_spec hm₁ ht).seq fun _ m₂ hm₂ => ?_
  exact flushSuppressed_spec (p := r.tt) hm₂ (mem_head _ _)

/-- A list of registered topics is disposed one after another. -/
theorem forEach_topicDispose_spec {tk rk : Nat} (rs : List Reg) {rest : Multiset (Nat × TekTopic)}
    {m : Mode Tab View} {c : Cells} (hm : At .wr c b m)
    (ht : c.topics = bag (Reg.cell tk) rs + rest) (hk : c.rkts = bag (Reg.handle rk) rs) :
    logic.Safe S (Prog.forEach tekKafkaTopicDispose (rs.map (·.tt))) m fun _ m' =>
      ∃ ds, (∀ p, p ∈ ds ↔ p ∈ rs.map (·.tt) ∨ p ∈ c.disposed) ∧ At .wr
        { c with
          topics := bag (fun r => (Reg.old tk r).cell) rs + rest, rkts := 0, disposed := ds }
        b m' := by
  induction rs generalizing m c rest with
  | nil =>
      rw [bag_nil] at ht hk
      refine Safe.pure ⟨c.disposed, fun p => by simp, ?_⟩
      rw [bag_nil, ← ht, ← hk]; exact hm
  | cons r rs ih =>
      rw [bag_cons, add_assoc] at ht
      rw [bag_cons] at hk
      refine (tekKafkaTopicDispose_spec hm ht hk).seq fun _ m₁ hm₁ => ?_
      have hsplit : {(r.old tk).cell} + (bag (Reg.cell tk) rs + rest) =
          bag (Reg.cell tk) rs + ({(r.old tk).cell} + rest) := by abel
      have hrest := ih hm₁ hsplit rfl
      refine hrest.mono ?_
      rintro _ m₂ ⟨ds, hds, hm₂⟩
      refine ⟨ds, fun p => ?_, hm₂.cast ?_⟩
      · rw [hds p, List.map_cons, List.mem_cons, List.mem_cons]; tauto
      · congr 1
        rw [bag_cons]; abel

/-- A topic is created whole or not at all. -/
theorem tekKafkaTopicCreate_spec {tk rk : Nat} {v : TekKafka} {x : RdKafka} {name : CStr}
    (hm : At .wr c b m) (hp : (tk, v) ∈ c.producers) (hrk : v.rk = some rk)
    (hr : (rk, x) ∈ c.rks) :
    logic.Safe S (tekKafkaTopicCreate tk (some name)) m fun r m' =>
      (r = none ∧ (MayFail S ∨ zstr (some name) = true) ∧ At .wr c b m') ∨
      ∃ reg : Reg, r = some reg.tt ∧ reg.name.val = name ∧ zstr (some name) = false ∧
        (∀ x ∈ b.acc, x.tt ≠ reg.tt) ∧ At .wr
        { c with
          topics := {reg.cell tk} + c.topics, strs := {reg.name.cell} + c.strs
          rkts := {reg.handle rk} + c.rkts } b m' := by
  refine (loadTk_spec hm (by decide) hp).seq ?_
  rintro _ _ ⟨rfl, rfl⟩
  simp only [hrk]
  cases hz : zstr (some name) with
  | true => exact Safe.pure (Or.inl ⟨rfl, Or.inr rfl, hm⟩)
  | false =>
      refine (mallocTopic_spec hm).seq ?_
      rintro _ m₁ (⟨rfl, hf, hm₁⟩ | ⟨p, rfl, hn, hacc, hm₁⟩)
      · exact Safe.pure (Or.inl ⟨rfl, Or.inl hf, hm₁⟩)
      refine (storeTopic_spec hm₁ rfl).seq fun _ m₂ hm₂ => ?_
      refine (strdup_spec hm₂).seq ?_
      rintro _ m₃ (⟨rfl, hf, hm₃⟩ | ⟨s, rfl, hs, hm₃⟩)
      · refine (freeTopic_spec hm₃ rfl rfl hn (Or.inr hacc)).seq fun _ m₄ hm₄ => ?_
        exact Safe.pure (Or.inl ⟨rfl, Or.inl hf, hm₄⟩)
      refine (storeTopic_spec hm₃ rfl).seq fun _ m₄ hm₄ => ?_
      refine (rdKafkaTopicNew_spec hm₄ hr).seq ?_
      rintro _ m₅ (⟨rfl, hf, hm₅⟩ | ⟨k, rfl, hm₅⟩)
      · refine (freeStr_spec hm₅ rfl).seq fun _ m₆ hm₆ => ?_
        refine (freeTopic_spec hm₆ rfl rfl hn (Or.inr hacc)).seq fun _ m₇ hm₇ => ?_
        exact Safe.pure (Or.inl ⟨rfl, Or.inl hf, hm₇⟩)
      refine (storeTopic_spec hm₅ rfl).seq fun _ m₆ hm₆ => ?_
      refine Safe.pure (Or.inr ⟨⟨p, s, k⟩, rfl, hs, rfl, hacc, hm₆.cast ?_⟩)
      subst hs; rfl

/-! ### Serving reports -/

theorem rdKafkaPoll_spec {rk : Nat} {x : RdKafka} (hm : At h c b m) (hh : h ≠ .none)
    (hr : (rk, x) ∈ c.rks) : logic.Safe S (rdKafkaPoll rk) m fun _ => At h c b :=
  (serveBegin_spec hm hh hr).seq fun _ _ hm₁ => serveEnd_spec hm₁ hh

/-- After a flush that leaves nothing queued, no record is named. -/
theorem tekKafkaProducerFlush_spec {tk rk : Nat} {v : TekKafka} {x : RdKafka} (hm : At h c b m)
    (hh : h ≠ .none) (hp : (tk, v) ∈ c.producers) (hrk : v.rk = some rk) (hr : (rk, x) ∈ c.rks) :
    logic.Safe S (tekKafkaProducerFlush (some tk)) m fun n m' =>
      (n = 0 ∧ At h c b.drained m') ∨ (0 < n ∧ At h c b m') := by
  refine (loadTk_spec hm hh hp).seq ?_
  rintro _ _ ⟨rfl, rfl⟩
  simp only [hrk]
  refine Safe.seq (P := fun _ => At h c b) ?_ fun _ _ hm₁ => rdKafkaOutqLen_spec hm₁ hh hr
  exact (serveBegin_spec hm hh hr).seq fun _ _ hm₁ => serveEnd_spec hm₁ hh

/-- The two counters are read one after the other. -/
theorem readCounters_spec {p : Nat} {w : TekTopic} (hm : At h c b m) (hh : h ≠ .none)
    (ht : (p, w) ∈ c.topics) :
    logic.Safe S (readCounters p) m fun r m' => ∃ s₁ s₂,
      (S.Tracks h → b.lo <+: s₁ ∧ s₁ <+: s₂) ∧ r.1 = UInt32.ofNat (successes p s₁) ∧
      r.2 = UInt32.ofNat (failures p s₂) ∧ At h c { b with lo := s₂ } m' := by
  refine (loadTransferred_spec hm hh ht).seq ?_
  rintro _ m₁ ⟨s₁, hs₁, rfl, hm₁⟩
  refine (loadFailed_spec hm₁ hh ht).seq ?_
  rintro _ m₂ ⟨s₂, hs₂, rfl, hm₂⟩
  exact Safe.pure ⟨s₁, s₂, fun htr => ⟨hs₁ htr, hs₂ htr⟩, rfl, rfl, hm₂⟩

theorem tekKafkaTopicGetStats_spec {tk rk p : Nat} {v : TekKafka} {w : TekTopic} {x : RdKafka}
    (hm : At h c b m) (hh : h ≠ .none) (ht : (p, w) ∈ c.topics) (hw : w.producer = some tk)
    (hp : (tk, v) ∈ c.producers) (hrk : v.rk = some rk) (hr : (rk, x) ∈ c.rks) :
    logic.Safe S (tekKafkaTopicGetStats p) m fun r m' => ∃ b' s₁ s₂,
      (S.Tracks h → b.lo <+: s₁ ∧ s₁ <+: s₂) ∧ r.1 = UInt32.ofNat (successes p s₁) ∧
      r.2 = UInt32.ofNat (failures p s₂) ∧ b'.acc = b.acc ∧ b'.scratch = b.scratch ∧
      b'.lo = s₂ ∧ At h c b' m' := by
  refine (loadTopic_spec hm hh ht).seq ?_
  rintro _ _ ⟨rfl, rfl⟩
  rw [hw]
  refine (tekKafkaProducerFlush_spec hm hh hp hrk hr).seq ?_
  rintro n m₁ (⟨-, hm₁⟩ | ⟨-, hm₁⟩)
  · refine (readCounters_spec hm₁ hh ht).mono ?_
    rintro r m₂ ⟨s₁, s₂, hs, h₁, h₂, hm₂⟩
    exact ⟨{ b.drained with lo := s₂ }, s₁, s₂, hs, h₁, h₂, rfl, rfl, rfl, hm₂⟩
  · refine (readCounters_spec hm₁ hh ht).mono ?_
    rintro r m₂ ⟨s₁, s₂, hs, h₁, h₂, hm₂⟩
    exact ⟨{ b with lo := s₂ }, s₁, s₂, hs, h₁, h₂, rfl, rfl, rfl, hm₂⟩

/-! ### Sending -/

/-- The retry loop sends the message once or, on an error other than a full queue, not at all. -/
theorem tekKafkaTopicFeedKey_spec {rkt rk tt klen : Nat} {w : TekTopic} {k : RdKafkaTopic}
    {x : RdKafka} {key : Option (List UInt8)} {data : List UInt8} (hm : At h c b m)
    (hh : h ≠ .none) (ht : (tt, w) ∈ c.topics) (hk : (rkt, k) ∈ c.rkts) (hkr : k.rk = rk)
    (hr : (rk, x) ∈ c.rks) :
    logic.Safe S (tekKafkaTopicFeedKey tt rkt rk key klen data) m fun r m' =>
      (r = .success ∧ data.length ≤ messageMaxBytes ∧
        ∃ id, At h c (b.sent ⟨id, rkt, keyBytes key klen, data, tt⟩) m') ∨
      (r = .error ∧ MayFail S ∧ At h c b m') := by
  refine Prog.wp_loop (At h c b) hm fun m₁ hm₁ => ?_
  subst hkr
  refine (rdKafkaProduce_spec hm₁ hh ht hk hr).seq ?_
  rintro _ m₂ (⟨rfl, hlen, id, hm₂⟩ | ⟨rfl, hm₂⟩ | ⟨err, rfl, hf, hm₂⟩)
  · refine (rdKafkaPoll_spec hm₂ hh hr).seq fun _ m₃ hm₃ => Safe.pure ?_
    exact Prog.wp_ret (Or.inl ⟨rfl, hlen, id, hm₃⟩)
  · exact (rdKafkaPoll_spec hm₂ hh hr).seq fun _ m₃ hm₃ => Safe.pure hm₃
  · by_cases he : err = queueFull
    · simp only [he, if_true]
      exact (rdKafkaPoll_spec hm₂ hh hr).seq fun _ m₃ hm₃ => Safe.pure hm₃
    · simp only [he, if_false]
      exact Safe.pure (Prog.wp_ret (Or.inr ⟨rfl, hf, hm₂⟩))

/-- The NULL guards never fire on a registered topic. -/
theorem tekKafkaTopicFeed_spec {tk rk : Nat} {v : TekKafka} {r : Reg} {x : RdKafka}
    {data : List UInt8} (hm : At h c b m) (hh : h ≠ .none) (ht : r.cell tk ∈ c.topics)
    (hk : r.handle rk ∈ c.rkts) (hp : (tk, v) ∈ c.producers) (hrk : v.rk = some rk)
    (hr : (rk, x) ∈ c.rks) :
    logic.Safe S (tekKafkaTopicFeed r.tt data) m fun st m' =>
      (st = .success ∧ data.length ≤ messageMaxBytes ∧
        ∃ id, At h c (b.sent ⟨id, r.rkt, none, data, r.tt⟩) m') ∨
      (st = .error ∧ MayFail S ∧ At h c b m') := by
  refine (loadTopic_spec hm hh ht).seq ?_
  rintro _ _ ⟨rfl, rfl⟩
  refine (loadTk_spec hm hh hp).seq ?_
  rintro _ _ ⟨rfl, rfl⟩
  simp only [hrk]
  exact tekKafkaTopicFeedKey_spec hm hh ht hk rfl hr

/-! ### The producer -/

/-- A `char *` as a cell of its heap, when it is not NULL. -/
def strCell : Option Str → Multiset (Nat × CStr)
  | none   => 0
  | some s => {s.cell}

/-- A pointer as a cell of its heap, when it is not NULL. -/
def ptrCell {α : Type} : Option Nat → α → Multiset (Nat × α)
  | none,   _ => 0
  | some p, a => {(p, a)}

theorem safeFreeStr_spec {s : Option Str} {rest : Multiset (Nat × CStr)} (hm : At .wr c b m)
    (hs : c.strs = strCell s + rest) :
    logic.Safe S (safeFreeStr s) m fun _ => At .wr { c with strs := rest } b := by
  cases s with
  | none =>
      rw [strCell, zero_add] at hs
      exact Safe.pure (hm.cast (by rw [← hs]))
  | some s => exact freeStr_spec hm hs

theorem safeFreeArray_spec {p : Option Nat} {k : Nat} {rest : Multiset (Nat × Nat)}
    (hm : At .wr c b m) (hs : c.arrays = block p k + rest) :
    logic.Safe S (safeFreeArray p) m fun _ => At .wr { c with arrays := rest } b := by
  cases p with
  | none =>
      rw [block, zero_add] at hs
      exact Safe.pure (hm.cast (by rw [← hs]))
  | some p => exact freeArray_spec hm hs

theorem destroyConf_spec {p : Option Nat} {cf : Conf} {rest : Multiset (Nat × Conf)}
    (hm : At .wr c b m) (hc : c.confs = ptrCell p cf + rest) :
    logic.Safe S (destroyConf p) m fun _ => At .wr { c with confs := rest } b := by
  cases p with
  | none =>
      rw [ptrCell, zero_add] at hc
      exact Safe.pure (hm.cast (by rw [← hc]))
  | some p => exact rdKafkaConfDestroy_spec hm hc

theorem joinPollThread_spec {tk : Nat} {v w : TekKafka} {rest : Multiset (Nat × TekKafka)}
    (hm : At .wr c b m) (hp : c.producers = {(tk, w)} + rest) (hw : w.rk = v.rk)
    (hth : c.threads = if v.threadStarted then {(v.thread, tk)} else 0) :
    logic.Safe S (joinPollThread tk v) m fun _ m' => ∃ w', w'.rk = v.rk ∧
      At .wr { c with producers := {(tk, w')} + rest, threads := 0 } b m' := by
  unfold joinPollThread
  cases hst : v.threadStarted with
  | false =>
      rw [hst] at hth
      exact Safe.pure ⟨w, hw, hm.cast (by rw [← hp, show (0 : Multiset _) = c.threads from hth.symm])⟩
  | true =>
      rw [hst] at hth
      have hone : c.threads = {(v.thread, tk)} + 0 := by simpa using hth
      refine (pthreadJoin_spec hm hone).seq fun _ m₁ hm₁ => ?_
      refine (storeTk_spec hm₁ hp (Or.inl (by exact hw.symm))).mono fun _ m₂ hm₂ => ⟨_, ?_, hm₂⟩
      rfl

/-- `rd_kafka_destroy` leaves nothing in flight. -/
theorem destroyInstance_spec {tk : Nat} {v w : TekKafka} {x : RdKafka}
    {rest : Multiset (Nat × TekKafka)} (hm : At .wr c b m)
    (hp : c.producers = {(tk, w)} + rest) (hth : c.threads = 0) (hr : c.rks = ptrCell v.rk x)
    (hk : c.rkts = 0) :
    logic.Safe S (destroyInstance tk v) m fun _ m' => ∃ b' w', b.Same b' ∧
      (v.rk ≠ none → ∀ p, ¬ b'.named p) ∧
      At .wr { c with producers := {(tk, w')} + rest, rks := 0 } b' m' := by
  unfold destroyInstance
  cases hrk : v.rk with
  | none =>
      rw [hrk] at hr
      have he : c = { c with producers := {(tk, w)} + rest, rks := 0 } := by
        rw [← hp, show (0 : Multiset (Nat × RdKafka)) = c.rks from hr.symm]
      exact Safe.pure ⟨b, w, .refl b, fun e => absurd rfl e, hm.cast he⟩
  | some rk =>
      rw [hrk] at hr
      have hmem : (rk, x) ∈ c.rks := by rw [hr]; exact Multiset.mem_singleton_self _
      refine (serveBegin_spec hm (by decide) hmem).seq fun _ m₁ hm₁ => ?_
      refine (rdKafkaDestroy_spec hm₁ hr hk hth).seq fun _ m₂ hm₂ => ?_
      have hno : ∀ thr, (thr, tk) ∉ c.threads := fun thr => hth ▸ Multiset.notMem_zero _
      exact (storeTk_spec hm₂ hp (Or.inr ⟨hno, Or.inl rfl⟩)).mono fun _ m₃ hm₃ =>
        ⟨_, _, b.same_drained, fun _ p hp => hp, hm₃⟩

/-- What the producer has is released: its thread joined, its instance destroyed, then its
configuration, its broker list and its record. -/
theorem tekKafkaProducerDispose_spec {tk : Nat} {v : TekKafka} {cf : Conf} {x : RdKafka}
    {prest : Multiset (Nat × TekKafka)} {srest : Multiset (Nat × CStr)}
    {crest : Multiset (Nat × Conf)} (hm : At .wr c b m) (hp : c.producers = {(tk, v)} + prest)
    (hs : c.strs = strCell v.brokers + srest) (hc : c.confs = ptrCell v.conf cf + crest)
    (hth : c.threads = if v.threadStarted then {(v.thread, tk)} else 0)
    (hr : c.rks = ptrCell v.rk x) (hk : c.rkts = 0) :
    logic.Safe S (tekKafkaProducerDispose (some tk)) m fun _ m' => ∃ b', b.Same b' ∧
      (v.rk ≠ none → ∀ p, ¬ b'.named p) ∧ At .wr
        { c with producers := prest, strs := srest, confs := crest, threads := 0, rks := 0 }
        b' m' := by
  have hload : (tk, v) ∈ c.producers := hp ▸ mem_head _ _
  refine (loadTk_spec hm (by decide) hload).seq ?_
  rintro v _ ⟨rfl, rfl⟩
  refine (storeTk_spec hm hp (Or.inl (by rfl))).seq fun _ m₁ hm₁ => ?_
  refine (joinPollThread_spec hm₁ rfl rfl hth).seq ?_
  rintro _ m₂ ⟨w, -, hm₂⟩
  refine (destroyInstance_spec hm₂ rfl rfl hr hk).seq ?_
  rintro _ m₃ ⟨b', w', hb, hn, hm₃⟩
  refine (destroyConf_spec hm₃ hc).seq fun _ m₄ hm₄ => ?_
  refine (safeFreeStr_spec hm₄ hs).seq fun _ m₅ hm₅ => ?_
  exact (freeTk_spec hm₅ rfl fun thr => Multiset.notMem_zero _).mono fun _ m₆ hm₆ =>
    ⟨b', hb, hn, hm₆⟩

/-- A duplicate, whether or not there is one. -/
theorem strdup_any {s : CStr} (hm : At .wr c b m) :
    logic.Safe S (call (.strdup s)) m fun (r : Option Str) m' =>
      (r = none → MayFail S) ∧ (∀ x, r = some x → x.val = s) ∧
        At .wr { c with strs := strCell r + c.strs } b m' := by
  refine (strdup_spec hm).mono ?_
  rintro _ m' (⟨rfl, hf, hm'⟩ | ⟨x, rfl, hx, hm'⟩)
  · refine ⟨fun _ => hf, fun x e => (by cases e), hm'.cast ?_⟩
    rw [strCell, zero_add]
  · exact ⟨fun e => (by cases e), fun y e => by cases e; exact hx, hm'⟩

/-- A configuration, whether or not there is one. -/
theorem rdKafkaConfNew_any (hm : At .wr c b m) :
    logic.Safe S (call .rdKafkaConfNew) m fun (r : Option Nat) m' =>
      (r = none → MayFail S) ∧
        At .wr { c with confs := ptrCell r ⟨[], false⟩ + c.confs } b m' := by
  refine (rdKafkaConfNew_spec hm).mono ?_
  rintro _ m' (⟨rfl, hf, hm'⟩ | ⟨p, rfl, hm'⟩)
  · refine ⟨fun _ => hf, hm'.cast ?_⟩
    rw [ptrCell, zero_add]
  · exact ⟨fun e => (by cases e), hm'⟩

theorem kafkaConfSetAll_spec {p : Nat} {rest : Multiset (Nat × Conf)} (l : List (CStr × CStr))
    {v : Conf} {m : Mode Tab View} {c : Cells} (hm : At .wr c b m)
    (hc : c.confs = {(p, v)} + rest) :
    logic.Safe S (kafkaConfSetAll p l) m fun r m' =>
      (r = false ∧ MayFail S ∧ ∃ v', At .wr { c with confs := {(p, v')} + rest } b m') ∨
      (r = true ∧
        At .wr { c with confs := {(p, { v with sets := v.sets ++ l })} + rest } b m') := by
  induction l generalizing v m c with
  | nil =>
      refine Safe.pure (Or.inr ⟨rfl, hm.cast ?_⟩)
      rw [List.append_nil, ← hc]
  | cons a l ih =>
      obtain ⟨name, value⟩ := a
      refine (rdKafkaConfSet_spec hm hc).seq ?_
      rintro _ m₁ (⟨text, rfl, hf, hm₁⟩ | ⟨rfl, hm₁⟩)
      · exact Safe.pure (Or.inl ⟨rfl, hf, v, hm₁.cast (by rw [← hc])⟩)
      · refine (ih hm₁ rfl).mono ?_
        rintro _ m₂ (⟨hr, hf, v', hm₂⟩ | ⟨hr, hm₂⟩)
        · exact Or.inl ⟨hr, hf, v', hm₂⟩
        · refine Or.inr ⟨hr, hm₂.cast ?_⟩
          simp only [List.append_assoc, List.singleton_append]

/-- The record of a producer that is not running: its configuration is still owned. -/
def TekKafka.configured (s : Str) (conf : Nat) : TekKafka :=
  ⟨some s, some conf, none, 0, false, false⟩

/-- The producer is created with the defaults, or not at all. -/
theorem tekKafkaProducerCreate_spec {brokers : CStr} (hm : At .wr c b m)
    (hz : zstr (some brokers) = false) (hk : c.kt.producer = none) (hth : c.threads = 0)
    (hr : c.rks = 0) (hkt : c.rkts = 0) :
    logic.Safe S (tekKafkaProducerCreate brokers) m fun r m' =>
      (r = none ∧ MayFail S ∧ ∃ b', b.Same b' ∧ At .wr c b' m') ∨
      ∃ tk s cf, r = some tk ∧ s.val = brokers ∧ At .wr
        { c with
          producers := {(tk, .configured s cf)} + c.producers, strs := {s.cell} + c.strs
          confs := {(cf, ⟨producerDefaults brokers, false⟩)} + c.confs } b m' := by
  unfold tekKafkaProducerCreate
  rw [hz, if_neg (by decide)]
  refine (mallocTk_spec hm hk).seq ?_
  rintro _ m₁ (⟨rfl, hf, hm₁⟩ | ⟨tk, rfl, hm₁⟩)
  · exact Safe.pure (Or.inl ⟨rfl, hf, b, .refl b, hm₁⟩)
  refine (strdup_any hm₁).seq fun dup m₂ ⟨hdf, hdv, hm₂⟩ => ?_
  refine (rdKafkaConfNew_any hm₂).seq fun conf m₃ ⟨hcf, hm₃⟩ => ?_
  refine (storeTk_spec hm₃ rfl (Or.inl (by rfl))).seq fun _ m₄ hm₄ => ?_
  -- whatever there is of the producer is given back
  have hundo : ∀ (v : Conf) (m₅ : Mode Tab View), MayFail S → At .wr
      { c with
        producers := {(tk, { TekKafka.zero with brokers := dup, conf := conf })} + c.producers
        strs := strCell dup + c.strs, confs := ptrCell conf v + c.confs } b m₅ →
      logic.Safe S (do tekKafkaProducerDispose (some tk); pure none) m₅ fun r m' =>
        (r = none ∧ MayFail S ∧ ∃ b', b.Same b' ∧ At .wr c b' m') ∨
        ∃ tk s cf, r = some tk ∧ s.val = brokers ∧ At .wr
          { c with
            producers := {(tk, .configured s cf)} + c.producers, strs := {s.cell} + c.strs
            confs := {(cf, ⟨producerDefaults brokers, false⟩)} + c.confs } b m' := by
    intro v m₅ hf hm₅
    refine (tekKafkaProducerDispose_spec (x := ⟨v⟩) hm₅ rfl rfl rfl hth hr hkt).seq ?_
    rintro _ m₆ ⟨b', hb, -, hm₆⟩
    refine Safe.pure (Or.inl ⟨rfl, hf, b', hb, hm₆.cast ?_⟩)
    simp only [← hth, ← hr]
  cases dup with
  | none => exact hundo _ m₄ (hdf rfl) hm₄
  | some s =>
      cases conf with
      | none => exact hundo _ m₄ (hcf rfl) hm₄
      | some cf =>
          obtain rfl := hdv s rfl
          refine (kafkaConfSetAll_spec (producerDefaults s.val) hm₄ rfl).seq ?_
          rintro _ m₅ (⟨rfl, hf, v', hm₅⟩ | ⟨rfl, hm₅⟩)
          · exact hundo v' m₅ hf hm₅
          · exact Safe.pure (Or.inr ⟨tk, s, cf, rfl, rfl, hm₅⟩)

/-- `tek_kafka_producer_set_param` on a producer that is not running. -/
theorem tekKafkaProducerSetParam_spec {tk cf : Nat} {s : Str} {v : Conf} {name value : CStr}
    {rest : Multiset (Nat × Conf)} (hm : At .wr c b m) (hz : zstr (some name) = false)
    (hp : (tk, TekKafka.configured s cf) ∈ c.producers) (hc : c.confs = {(cf, v)} + rest) :
    logic.Safe S (tekKafkaProducerSetParam tk name value) m fun r m' =>
      (∃ text, r = .error text ∧ MayFail S ∧ At .wr c b m') ∨
      r = .ok () ∧ At .wr
        { c with confs := {(cf, { v with sets := v.sets ++ [(name, value)] })} + rest } b m' := by
  unfold tekKafkaProducerSetParam
  rw [hz, if_neg (by decide)]
  refine (loadTk_spec hm (by decide) hp).seq ?_
  rintro _ _ ⟨rfl, rfl⟩
  exact rdKafkaConfSet_spec hm hc

/-- A producer that did not start: its configuration is gone, its thread was not started. -/
structure TekKafka.Stopped (v : TekKafka) (s : Str) : Prop where
  brokers : v.brokers = some s
  conf : v.conf = none
  thread : v.threadStarted = false

/-- The configuration is taken over by the instance or destroyed, and on success the instance
runs with its thread. -/
theorem tekKafkaProducerRun_spec {tk cf : Nat} {s : Str} {v : Conf}
    {prest : Multiset (Nat × TekKafka)} {crest : Multiset (Nat × Conf)} (hm : At .wr c b m)
    (hp : c.producers = {(tk, .configured s cf)} + prest) (hc : c.confs = {(cf, v)} + crest)
    (hk : c.kt.producer = none) (hth : c.threads = 0) (hr : c.rks = 0) :
    logic.Safe S (tekKafkaProducerRun tk) m fun r m' =>
      (∃ text w, r = .error text ∧ MayFail S ∧ w.Stopped s ∧ At .wr
        { c with
          producers := {(tk, w)} + prest, confs := crest
          rks := ptrCell w.rk ⟨{ v with drMsgCb := true }⟩
          handed := c.handed ++ [{ v with drMsgCb := true }] } b m') ∨
      ∃ rk thr, r = .ok () ∧ At .wr
        { c with
          producers := {(tk, ⟨some s, none, some rk, thr, true, true⟩)} + prest, confs := crest
          rks := {(rk, ⟨{ v with drMsgCb := true }⟩)}, threads := {(thr, tk)}
          handed := c.handed ++ [{ v with drMsgCb := true }] } b m' := by
  have hload : (tk, TekKafka.configured s cf) ∈ c.producers := hp ▸ mem_head _ _
  have hno : ∀ thr, (thr, tk) ∉ c.threads := fun thr => hth ▸ Multiset.notMem_zero _
  have hkn : c.kt.producer ≠ some tk := by rw [hk]; exact fun e => by cases e
  refine (loadTk_spec hm (by decide) hload).seq ?_
  rintro _ _ ⟨rfl, rfl⟩
  refine (rdKafkaConfSetDrMsgCb_spec hm hc).seq fun _ m₁ hm₁ => ?_
  refine (rdKafkaNew_spec hm₁ rfl hr hk).seq ?_
  rintro _ m₂ (⟨text, rfl, hf, hm₂⟩ | ⟨rk, rfl, hm₂⟩)
  · -- the instance was not created
    refine (rdKafkaConfDestroy_spec hm₂ rfl).seq fun _ m₃ hm₃ => ?_
    refine (storeTk_spec hm₃ hp (Or.inl (by rfl))).seq fun _ m₄ hm₄ => ?_
    refine Safe.pure (Or.inl ⟨text, ⟨some s, none, none, 0, false, false⟩, rfl, hf,
      ⟨rfl, rfl, rfl⟩, hm₄.cast ?_⟩)
    simp only [ptrCell, ← hr]
    rfl
  · refine (storeTk_spec hm₂ hp (Or.inr ⟨hno, Or.inr hkn⟩)).seq fun _ m₃ hm₃ => ?_
    refine (pthreadCreate_spec hm₃ (mem_head _ _) rfl (Multiset.mem_singleton_self _)).seq ?_
    rintro _ m₄ (⟨rfl, hf, hm₄⟩ | ⟨thr, rfl, hm₄⟩)
    · -- its thread was not started
      refine (storeTk_spec hm₄ rfl (Or.inl (by rfl))).seq fun _ m₅ hm₅ => ?_
      exact Safe.pure (Or.inl ⟨_, _, rfl, hf, ⟨rfl, rfl, rfl⟩, hm₅⟩)
    · refine (storeTk_spec hm₄ rfl (Or.inl (by rfl))).seq fun _ m₅ hm₅ => ?_
      refine Safe.pure (Or.inr ⟨rk, thr, rfl, hm₅.cast ?_⟩)
      simp only [hth, add_zero]
      rfl

end TrigEmit
