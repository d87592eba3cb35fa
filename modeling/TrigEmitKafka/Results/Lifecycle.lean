import TrigEmitKafka.Results.Safety
import TrigEmitKafka.Rules.Duties
import TrigEmitKafka.Rules.Lifecycle

/-!
# Results — from acquisition to release

A run of the machine has a log: every call to libc, to librdkafka and to pthread, with its result.
The sessions make any calls to the table, in any order and at the same time, and every allocation
and every call to librdkafka or pthread may fail.

* `lifecycle`: what every log keeps.  Nothing is released that was not acquired, or released
  before; a configuration is taken over by `rd_kafka_new` or destroyed, once; there is at most one
  instance of librdkafka, and it is destroyed after its handles and after its poll thread was
  joined; a registered topic has a handle of the current instance, so that `kafka_table_send` never
  comes to a NULL; and when the module is unloaded everything is released, but for the records that
  `kafka_table_remove_locked` could not park.
* `unparked_leaks`: such a record is never released.
-/

namespace TrigEmit

open Conc (Cfg Duty Label Solo execLog)
open Conc.Logic (Allowed Good SoloOk allowed_any alone)
open Ledger (Book Each Stock runLog_keeps)
open Store (Heap)

/-! ### Configurations -/

/-- The event is `rd_kafka_new` taking over the configuration `c`. -/
def Done.takes (c : Nat) : Done → Bool
  | ⟨.rdKafkaNew c', .ok _⟩ => decide (c' = c)
  | _                       => false

/-- The event destroys the configuration `c`. -/
def Done.destroys (c : Nat) : Done → Bool
  | ⟨.rdKafkaConfDestroy c', _⟩ => decide (c' = c)
  | _                           => false

theorem loss_conf (c : Nat) (e : Done) :
    (if book.loss e = some (.conf, c) then 1 else 0) =
      (if Done.takes c e then 1 else 0) + if Done.destroys c e then 1 else 0 := by
  obtain ⟨o, r⟩ := e
  cases o with
  | rdKafkaNew c' => cases r <;> simp [book, Op.loss, Done.takes, Done.destroys]
  | rdKafkaConfDestroy c' => simp [book, Op.loss, Done.takes, Done.destroys]
  | realloc old n => cases old <;> cases r <;> rfl
  | _ => rfl

/-- A configuration is released by being taken over or destroyed. -/
theorem released_conf (c : Nat) (tr : List Done) :
    book.released (.conf, c) tr = tr.countP (Done.takes c) + tr.countP (Done.destroys c) := by
  induction tr with
  | nil => rfl
  | cons e tr ih =>
      have he := loss_conf c e
      simp only [Book.released, List.countP_cons, decide_eq_true_eq] at ih ⊢
      rw [ih, he]
      omega

/-! ### Records -/

/-- A retired record has no handle. -/
theorem TableInv.retired {T : Tab} (hT : TableInv T) {tt : Nat}
    (htt : tt ∈ T.kt.retired.items) : ∃ v, T.topics.get tt = some v ∧ v.rkt = none := by
  obtain ⟨W, -, h⟩ := hT
  rw [h.kt] at htt
  cases hc : W.conn with
  | none => simp [World.cells, World.kt, hc, CArray.null] at htt
  | some c =>
      have hmem : tt ∈ c.retired.items.map (·.tt) := by
        simpa [World.cells, World.kt, hc] using htt
      obtain ⟨r, hr, rfl⟩ := List.mem_map.mp hmem
      have hcell : r.cell ∈ W.cells.topics := by
        have := mem_bag (f := Old.cell) hr
        simp [World.cells, hc, Conn.records, this]
      exact ⟨_, h.topics.get hcell, rfl⟩

/-- The object is a record that could not be parked, or its name. -/
def Tab.Leaked (T : Tab) (x : Obj) : Prop :=
  ∃ p ∈ T.leaked, x = (.record, p) ∨
    ∃ v s, T.topics.get p = some v ∧ v.name = some s ∧ x = (.str, s.ptr)

/-! ### What `kafka_table_send` looks up -/

/-- A record that is loaded under the lock is to have a handle and a producer, and a producer an
instance: what `tek_kafka_topic_feed` tests for. -/
def lookups : Duty Tab Op where
  needs
    | .loadTopic p, T => ∃ v rkt tk, T.topics.get p = some v ∧ v.rkt = some rkt ∧
        v.producer = some tk
    | .loadTk p,    T => ∃ v rk, T.producers.get p = some v ∧ v.rk = some rk
    | _,            _ => True
  stops _ := False

theorem lookups_free (o : Op) (T : Tab) (ho : o.Leaves) : lookups.needs o T := by
  cases o <;> first | exact ho.elim | trivial

/-- A registered record is on the current producer, which has an instance. -/
theorem TableInv.loads {T : Tab} (hT : TableInv T) {tt : Nat} (htt : tt ∈ T.kt.topics.items) :
    MayFeed lookups T tt := by
  obtain ⟨v, h, tk, p, rk, k, hv, hrkt, htk, -, hp, hrk, -⟩ := hT.onCurrent htt
  refine ⟨⟨v, h, tk, hv, hrkt, htk⟩, fun w tk' hw htk' => ?_⟩
  obtain rfl : v = w := Option.some.inj (hv.symm.trans hw)
  obtain rfl : tk = tk' := Option.some.inj (htk.symm.trans htk')
  exact ⟨p, rk, hp, hrk⟩

/-- The call is of `kafka_table_send`. -/
def TableCall.IsSend (c : TableCall) : Prop := ∃ topic data, c = .send topic data

theorem send_lookups (c : TableCall) (hc : c.IsSend) :
    lookups.Meets iface TableInv (tableProg c) none fun _ _ => True := by
  obtain ⟨topic, data, rfl⟩ := hc
  exact meets_send lookups_free topic data fun T hT tt htt => hT.loads htt

/-- What `kafka_table_send` loads under the lock passes the tests. -/
theorem Machine.Reachable.looked {s : Machine} (h : s.Reachable) {t : Nat} {topic : Option CStr}
    {data : List UInt8} {o : Op} {k : o.Res → K Int}
    (ht : s.thr t = some ⟨.send topic data, .call (.op o) k⟩) (hheld : s.lock.held t ≠ .none) :
    lookups.needs o s.sh := by
  obtain ⟨ls, hrun⟩ := h.runBy
  exact (Duty.needs_of_runBy (C := TableCall.IsSend) send_lookups (fun _ _ _ _ _ _ => id)
    Machine.good_initial hrun ⟨topic, data, rfl⟩ ht hheld).resolve_left id

/-! ### The log of a run -/

/-- The object was acquired, and not released. -/
def Outstanding (tr : List Done) (x : Obj) : Prop :=
  book.acquired x tr = 1 ∧ book.released x tr = 0

/-- A run of the module, with its log. -/
abbrev Machine.runLog (ls : List (Label Ans Ev TableCall)) : Option (List Done × Machine) :=
  Cfg.runLog iface tableProg ls Machine.initial

variable {ls : List (Label Ans Ev TableCall)} {tr : List Done} {s : Machine}

/-- Every log is kept. -/
theorem kept_of_runLog (h : Machine.runLog ls = some (tr, s)) :
    s.Reachable ∧ Kept tr s.sh s.fr := by
  refine runLog_keeps (P := fun tr (s : Machine) => s.Reachable ∧ Kept tr s.sh s.fr) ?_ h
    ⟨.refl, kept_init⟩
  rintro tr s l s' ⟨hr, hk⟩ hs
  have hr' : s'.Reachable := hr.step l hs
  refine ⟨hr', hk.step hr.inv hr'.inv ?_⟩
  rcases Cfg.step_done hs with hnone | ⟨t, c, o, k, a, r, ht, ha, hdone⟩ | henv
  · exact Or.inl hnone
  · exact Or.inr (Or.inl ⟨t, _, o, a, r, hr.good.valid ht, ha, hdone⟩)
  · exact Or.inr (Or.inr henv)

/-- A program run alone goes on keeping the log, and no other thread's throwaway configurations
change. -/
theorem kept_of_execLog {α : Type} {p : K α} {t : Nat} {items : List (Conc.Item Ans Ev)}
    {tr' : List Done} {T T' : Tab} {d d' : Flow} {x : α} {Q : α → Conc.Mode Tab View → Prop}
    (hi : Inv T d) (hk : Kept tr T d)
    (hsafe : logic.Safe (alone fun _ => True) p ⟨.none, T, View.of t T d⟩ Q)
    (h : execLog iface t p items T d = some (x, tr', T', d')) :
    Kept (tr ++ tr') T' d' ∧ ∀ u, u ≠ t → d'.scratch u = d.scratch u := by
  obtain ⟨⟨tr₁, σ⟩, hrun, hres⟩ := Option.bind_eq_some_iff.mp h
  obtain ⟨⟨y, T₁, d₁⟩, hresult, e⟩ := Option.map_eq_some_iff.mp hres
  cases e
  have hstart : SoloOk logic (fun _ => True) t Q ⟨p, .free, T, d⟩ :=
    ⟨hi, ⟨.none, T, View.of t T d⟩, Conc.Logic.fits_alone_iff.mpr
      ⟨(Conc.Lock.held_free t).symm, rfl, rfl, View.sees_of t hi⟩, hsafe⟩
  have hkeeps := runLog_keeps (P := fun tr₁ (σ : Solo Tab Flow Op Op.Res α) =>
    SoloOk logic (fun _ => True) t Q σ ∧ Kept (tr ++ tr₁) σ.sh σ.fr ∧
      ∀ u, u ≠ t → σ.fr.scratch u = d.scratch u) ?_ hrun
    ⟨hstart, by rw [List.append_nil]; exact hk, fun u _ => rfl⟩
  · obtain ⟨-, hk', hscratch⟩ := hkeeps
    obtain ⟨hsh, hfr⟩ := Solo.result_state hresult
    rw [hsh, hfr] at hk'
    rw [hfr] at hscratch
    exact ⟨hk', hscratch⟩
  · rintro tr₁ σ i σ' ⟨hok, hk, hscratch⟩ hs
    have hok' := hok.step (fun _ _ => trivial) hs
    rw [← List.append_assoc]
    rcases Solo.step_done hs with hnone | ⟨o, k, a, r, hrest, ha, hdone⟩ | henv
    · refine ⟨hok', hk.step hok.1 hok'.1 (Or.inl hnone), ?_⟩
      rw [hnone.2.2]
      exact hscratch
    · have hv := hok.valid hrest
      refine ⟨hok', hk.step hok.1 hok'.1 (Or.inr (Or.inl ⟨t, _, o, a, r, hv, ha, hdone⟩)), ?_⟩
      intro u hu
      exact (Op.act_scratch hu ha).trans (hscratch u hu)
    · refine ⟨hok', hk.step hok.1 hok'.1 (Or.inr (Or.inr henv)), ?_⟩
      obtain ⟨-, -, e, he⟩ := henv
      rw [Ev.act_scratch he]
      exact hscratch

/-! ### Unloading -/

/-- What is left after `kafka_table_shutdown`. -/
structure Unloaded (T : Tab) (tr : List Done) : Prop where
  lawful : Each Lawful tr
  /-- Every object was released as often as it was acquired. -/
  released : ∀ x, ¬ T.Leaked x → book.acquired x tr = book.released x tr
  /-- The records that could not be parked, and their names, were not released. -/
  leaked : ∀ x, T.Leaked x → Outstanding tr x

/-- The leaked objects of a world. -/
theorem Tab.Is.leaked_iff {W : World} {T : Tab} (hT : T.Is W.cells) {x : Obj} :
    T.Leaked x ↔ ∃ r ∈ W.leaked, x = (.record, r.tt) ∨ x = (.str, r.name.ptr) := by
  have hget : ∀ r ∈ W.leaked, T.topics.get r.tt = some ⟨some r.name, none, some r.tk⟩ := by
    intro r hr
    refine hT.topics.get (Multiset.mem_add.mpr (Or.inr ?_))
    exact mem_bag (f := Old.cell) hr
  have hleaked : T.leaked = W.leaked.map (·.tt) := hT.leaked
  unfold Tab.Leaked
  rw [hleaked]
  constructor
  · rintro ⟨p, hp, hx⟩
    obtain ⟨r, hr, rfl⟩ := List.mem_map.mp hp
    refine ⟨r, hr, hx.imp id ?_⟩
    rintro ⟨v, s, hv, hs, rfl⟩
    obtain rfl := Option.some.inj ((hget r hr).symm.trans hv)
    cases hs
    rfl
  · rintro ⟨r, hr, hx⟩
    refine ⟨r.tt, List.mem_map_of_mem hr, hx.imp id ?_⟩
    rintro rfl
    exact ⟨_, r.name, hget r hr, rfl, rfl⟩

/-- The objects of a kind are the leaked ones of it. -/
theorem World.live_iff_leaked {W : World} {α : Type} {h : Heap α} {f : Old → Nat × α} {k : Kind}
    (hh : h.Holds (bag f W.leaked)) {p : Nat} :
    h.Live p ↔ ∃ r ∈ W.leaked, (k, p) = (k, (f r).1) := by
  refine hh.live_iff.trans ⟨?_, ?_⟩
  · rintro ⟨a, ha⟩
    obtain ⟨r, hr, e⟩ := exists_of_mem_bag ha
    exact ⟨r, hr, by rw [e]⟩
  · rintro ⟨r, hr, e⟩
    cases e
    exact ⟨(f r).2, mem_bag (f := f) hr⟩

/-- What is live of a world without a connection and without parameters was leaked. -/
theorem Tab.Is.live_iff_leaked {W W' : World} {T T' : Tab} {d' : Flow} (hT : T.Is W.cells)
    (hT' : T'.Is W'.cells) (hconn : W'.conn = none) (hpar : W'.params = .null)
    (hl : W'.leaked = W.leaked) (hscratch : ∀ u, d'.scratch u = []) {x : Obj} :
    (stock T' d').live x ↔ T.Leaked x := by
  rw [hT.leaked_iff, ← hl]
  obtain ⟨k, p⟩ := x
  -- only records and their names are leaked
  have hnone : k ≠ .record → k ≠ .str →
      ¬ ∃ r ∈ W'.leaked, (k, p) = (.record, r.tt) ∨ (k, p) = (.str, r.name.ptr) := by
    rintro hr hs ⟨r, -, e | e⟩
    · exact hr (congrArg Prod.fst e)
    · exact hs (congrArg Prod.fst e)
  cases k with
  | str =>
      have hstrs : W'.cells.strs = bag (fun r => r.name.cell) W'.leaked := by
        simp [World.cells, hconn, hpar, CArray.null, paramStrs]
      refine (World.live_iff_leaked (k := .str) (hstrs ▸ hT'.strs)).trans ?_
      refine exists_congr fun r => and_congr_right fun _ => ⟨Or.inr, ?_⟩
      rintro (e | e)
      · cases e
      · exact e
  | record =>
      have htopics : W'.cells.topics = bag Old.cell W'.leaked := by simp [World.cells, hconn]
      refine (World.live_iff_leaked (k := .record) (htopics ▸ hT'.topics)).trans ?_
      refine exists_congr fun r => and_congr_right fun _ => ⟨Or.inl, ?_⟩
      rintro (e | e)
      · exact e
      · cases e
  | scratch =>
      refine iff_of_false (fun hs => ?_) (hnone Kind.noConfusion Kind.noConfusion)
      obtain ⟨u, hu⟩ : ∃ u, p ∈ d'.scratch u := hs
      rw [hscratch u] at hu
      cases hu
  | array =>
      have hzero : W'.cells.arrays = 0 := by
        simp [World.cells, hconn, hpar, CArray.mem, CArray.null, block]
      exact iff_of_false (Heap.Holds.not_live (hzero ▸ hT'.arrays) p)
        (hnone Kind.noConfusion Kind.noConfusion)
  | producer =>
      have hzero : W'.cells.producers = 0 := by simp [World.cells, hconn]
      exact iff_of_false (Heap.Holds.not_live (hzero ▸ hT'.producers) p)
        (hnone Kind.noConfusion Kind.noConfusion)
  | conf =>
      exact iff_of_false (Heap.Holds.not_live hT'.confs p) (hnone Kind.noConfusion Kind.noConfusion)
  | rk =>
      have hzero : W'.cells.rks = 0 := by simp [World.cells, hconn]
      exact iff_of_false (Heap.Holds.not_live (hzero ▸ hT'.rks) p)
        (hnone Kind.noConfusion Kind.noConfusion)
  | rkt =>
      have hzero : W'.cells.rkts = 0 := by simp [World.cells, hconn]
      exact iff_of_false (Heap.Holds.not_live (hzero ▸ hT'.rkts) p)
        (hnone Kind.noConfusion Kind.noConfusion)
  | thread =>
      have hzero : W'.cells.threads = 0 := by simp [World.cells, hconn]
      exact iff_of_false (Heap.Holds.not_live (hzero ▸ hT'.threads) p)
        (hnone Kind.noConfusion Kind.noConfusion)

/-- **Unloading**, when no session is at work. -/
theorem unloaded_of_execLog {W : World} {t : Nat} {items : List (Conc.Item Ans Ev)}
    {tr' : List Done} {T T' : Tab} {d d' : Flow} (hi : Inv T d) (hT : T.Is W.cells) (hW : W.Ok)
    (hk : Kept tr T d) (hidle : ∀ u, d.scratch u = [])
    (h : execLog iface t kafkaTableShutdown items T d = some ((), tr', T', d')) :
    Unloaded T (tr ++ tr') := by
  have hat : At .none W.cells (View.of t T d) ⟨.none, T, View.of t T d⟩ := At.of t .none hT
  have hsafe : logic.Safe (alone fun _ => True) kafkaTableShutdown ⟨.none, T, View.of t T d⟩ _ :=
    kafkaTableShutdown_alone hat hW
  obtain ⟨hk', hother⟩ := kept_of_execLog hi hk hsafe h
  obtain ⟨-, b, hown, -, W', b', hm, hb, hconn, hpar, hleaked⟩ :=
    Conc.Logic.exec_safe (L := logic) (b := View.of t T d) hi (Eq.refl (d.scratch t))
      (View.sees_of t hi) hsafe (allowed_any items) (Conc.exec_of_execLog h)
  have hscratch : ∀ u, d'.scratch u = [] := by
    intro u
    by_cases e : u = t
    · subst e
      have hview : b = b' := hm.view
      have hscr : b'.scratch = d.scratch u := hb.scratch
      exact hown.trans (by rw [hview, hscr, hidle u])
    · rw [hother u e, hidle u]
  have hlive : ∀ x, (stock T' d').live x ↔ T.Leaked x := fun x =>
    hT.live_iff_leaked hm.sh hconn hpar hleaked hscratch
  refine ⟨hk'.lawful, fun x hx => ?_, fun x hx => ?_⟩
  · exact hk'.balanced.settled fun h => hx ((hlive x).mp h)
  · exact hk'.balanced.live x ((hlive x).mpr hx)

/-! ### The lifecycle -/

/-- What is asked of a log, and of the state it leads to. -/
structure Lifecycle (tr : List Done) (s : Machine) : Prop where
  /-- Every event of the log meets what is asked of it after those before it. -/
  lawful : Each Lawful tr
  /-- A configuration is taken over or destroyed once, unless a call that writes still has it. -/
  confs : ∀ c, tr.countP (Done.takes c) + tr.countP (Done.destroys c) ≤
      book.acquired (.conf, c) tr ∧ book.acquired (.conf, c) tr ≤ 1 ∧
    (s.lock.NoWriter → tr.countP (Done.takes c) + tr.countP (Done.destroys c) =
      book.acquired (.conf, c) tr)
  /-- A throwaway configuration is destroyed once, unless a call still has it. -/
  scratch : (∀ t, s.thr t = none) →
    ∀ c, book.acquired (.scratch, c) tr = book.released (.scratch, c) tr
  /-- There is at most one instance. -/
  one : ∀ p q, Outstanding tr (.rk, p) → Outstanding tr (.rk, q) → p = q
  /-- When nobody writes, every instance but that of the current producer was destroyed. -/
  instances : s.lock.NoWriter → ∀ p, Outstanding tr (.rk, p) → ∃ tk v,
    s.sh.kt.producer = some tk ∧ s.sh.producers.get tk = some v ∧ v.rk = some p
  /-- When nobody writes, a registered record has a handle of the current instance. -/
  registered : s.lock.NoWriter → ∀ tt ∈ s.sh.kt.topics.items, s.sh.OnCurrent tt
  /-- When nobody writes, a retired record has no handle. -/
  retired : s.lock.NoWriter → ∀ tt ∈ s.sh.kt.retired.items,
    ∃ v, s.sh.topics.get tt = some v ∧ v.rkt = none
  /-- What `kafka_table_send` is about to look up has the handle, the producer and the instance
  that `tek_kafka_topic_feed` tests for. -/
  fed : ∀ t topic data,
    (∀ p k, s.thr t = some ⟨.send topic data, .call (.op (.loadTopic p)) k⟩ →
      ∃ v rkt tk, s.sh.topics.get p = some v ∧ v.rkt = some rkt ∧ v.producer = some tk) ∧
    ∀ p k, s.thr t = some ⟨.send topic data, .call (.op (.loadTk p)) k⟩ →
      ∃ v rk, s.sh.producers.get p = some v ∧ v.rk = some rk
  /-- After `kafka_table_shutdown`, when no other session is at work, everything is released. -/
  unloaded : (∀ t, s.thr t = none) → ∀ t items tr' T' d',
    execLog iface t kafkaTableShutdown items s.sh s.fr = some ((), tr', T', d') →
      Unloaded s.sh (tr ++ tr')

/-- Nobody writes while no session is at work. -/
theorem Machine.Reachable.noWriter (hr : s.Reachable) (hidle : ∀ t, s.thr t = none) :
    s.lock.NoWriter := by
  cases hl : s.lock with
  | reading rs => trivial
  | writing u =>
      have hnone := (hr.good.idle u (hidle u)).1
      rw [hl] at hnone
      simp [Conc.Lock.held] at hnone

/-- A session that is not at work has no throwaway configuration. -/
theorem Machine.Reachable.scratch_nil (hr : s.Reachable) {t : Nat} (ht : s.thr t = none) :
    s.fr.scratch t = [] := by
  obtain ⟨-, b, hb, hown⟩ := hr.good.idle t ht
  exact hown.trans hb

/-- Between two critical sections the instance is that of the current producer. -/
theorem TableInv.instance {T : Tab} (hT : TableInv T) {p : Nat} (hp : T.rks.Live p) :
    ∃ tk v, T.kt.producer = some tk ∧ T.producers.get tk = some v ∧ v.rk = some p := by
  obtain ⟨W, -, h⟩ := hT
  cases hc : W.conn with
  | none =>
      have hzero : W.cells.rks = 0 := by simp [World.cells, hc]
      exact absurd hp (Heap.Holds.not_live (hzero ▸ h.rks) p)
  | some c =>
      obtain ⟨v, hv⟩ := h.rks.live_iff.mp hp
      have hone : W.cells.rks = {(c.rk, ⟨c.conf⟩)} := by simp [World.cells, hc]
      rw [hone, Multiset.mem_singleton] at hv
      cases hv
      have hprod : T.kt.producer = some c.tk := by
        rw [h.kt]
        simp [World.cells, World.kt, hc]
      exact ⟨c.tk, _, hprod, h.producers.get (World.producer_mem hc), rfl⟩

/-- What a balanced log has outstanding is live. -/
theorem Kept.live {T : Tab} {d : Flow} (hk : Kept tr T d) {x : Obj} (hx : Outstanding tr x) :
    (stock T d).live x :=
  hk.balanced.live_of_ne (by rw [hx.1, hx.2]; exact Nat.one_ne_zero)

/-- **Lifecycle.** -/
theorem lifecycle (h : Machine.runLog ls = some (tr, s)) : Lifecycle tr s := by
  obtain ⟨hr, hk⟩ := kept_of_runLog h
  have hbal := hk.balanced
  refine
    { lawful := hk.lawful
      confs := fun c => ?_
      scratch := fun hidle c => ?_
      one := fun p q hp hq => hr.inv.one p q (hk.live hp) (hk.live hq)
      instances := fun hn p hp => TableInv.instance (hr.world hn) (hk.live hp)
      registered := fun hn tt htt => TableInv.onCurrent (hr.world hn) htt
      retired := fun hn tt htt => TableInv.retired (hr.world hn) htt
      fed := fun t topic data => ⟨fun p k ht => ?_, fun p k ht => ?_⟩
      unloaded := fun hidle t items tr' T' d' he => ?_ }
  · -- a configuration is released by one of the two
    have hconfs : s.lock.NoWriter → ¬ (stock s.sh s.fr).live (.conf, c) := by
      intro hn
      obtain ⟨W, -, hT⟩ := hr.world hn
      exact hT.confs.not_live c
    rw [← released_conf]
    exact ⟨hbal.released_le, hbal.acquired_le, fun hn => (hbal.settled (hconfs hn)).symm⟩
  · refine hbal.settled fun hl => ?_
    obtain ⟨t, ht⟩ := hl
    rw [hr.scratch_nil (hidle t)] at ht
    cases ht
  · exact hr.looked ht (hr.good.valid ht).1
  · exact hr.looked ht (hr.good.valid ht).1
  · obtain ⟨W, hW, hT⟩ := hr.world (hr.noWriter hidle)
    exact unloaded_of_execLog hr.inv hT hW hk (fun u => hr.scratch_nil (hidle u)) he

/-- A topic with a message on its way is dismissed: its handle is destroyed, and its record parked. -/
theorem lateReport_lifecycle : ∃ tr s, Machine.runLog lateReport = some (tr, s) ∧
    book.acquired (.rkt, 0) tr = 1 ∧ book.released (.rkt, 0) tr = 1 ∧
    s.sh.kt.retired.items = [0] ∧ Lifecycle tr s := by
  have hrun : (Machine.runLog lateReport).map (fun x =>
      (book.acquired (.rkt, 0) x.1, book.released (.rkt, 0) x.1, x.2.sh.kt.retired.items)) =
        some (1, 1, [0]) := by decide +kernel
  obtain ⟨⟨tr, s⟩, hs, he⟩ := Option.map_eq_some_iff.mp hrun
  simp only [Prod.mk.injEq] at he
  exact ⟨tr, s, hs, he.1, he.2.1, he.2.2, lifecycle hs⟩

/-! ### A record that cannot be parked -/

/-- A topic with a message on its way is dismissed, and there is no memory to park its record; then
the report of the message is served. -/
def unparked : List (Label Ans Ev TableCall) :=
  calling 0 (.connect (some (.lit "b"))) 20 ++ calling 0 (.create (some (.lit "t"))) 15 ++
    calling 0 (.send (some (.lit "t")) [1]) 11 ++
    .start 0 (.dismiss (some (.lit "t"))) :: List.replicate 16 (.step 0 .ok) ++
    .step 0 (.fail 0 "") :: List.replicate 3 (.step 0 .ok) ++
    [.finish 0, .env (.cbEnter 0 (.poll 0) noError), .env (.cbCount 0 0), .env (.cbReturn 0)]

/-- The module is unloaded, nothing failing: the poll thread exits before it is joined. -/
def unloading : List (Conc.Item Ans Ev) :=
  List.replicate 8 (.ans .ok) ++ .env (.pollCheck 0) :: List.replicate 16 (.ans .ok)

/-- The record is leaked: it is not released when the module is unloaded. -/
theorem unparked_leaks : ∃ tr s tr' T' d', Machine.runLog unparked = some (tr, s) ∧
    (∀ t, s.thr t = none) ∧
    execLog iface 0 kafkaTableShutdown unloading s.sh s.fr = some ((), tr', T', d') ∧
    book.acquired (.record, 0) (tr ++ tr') = 1 ∧ book.released (.record, 0) (tr ++ tr') = 0 := by
  have hrun : ((Machine.runLog unparked).bind fun x =>
      (execLog iface 0 kafkaTableShutdown unloading x.2.sh x.2.fr).map fun y =>
        ((x.2.thr 0).isNone, book.acquired (.record, 0) (x.1 ++ y.2.1),
          book.released (.record, 0) (x.1 ++ y.2.1))) = some (true, 1, 0) := by
    decide +kernel
  obtain ⟨⟨tr, s⟩, hs, hx⟩ := Option.bind_eq_some_iff.mp hrun
  obtain ⟨⟨u, tr', T', d'⟩, he, hy⟩ := Option.map_eq_some_iff.mp hx
  simp only [Prod.mk.injEq] at hy
  refine ⟨tr, s, tr', T', d', hs, fun t => ?_, he, hy.2.1, hy.2.2⟩
  by_cases h₀ : t = 0
  · subst h₀
    exact Option.isNone_iff_eq_none.mp hy.1
  · -- no other session is in the run
    have hall : (unparked.all fun l => l.thread == none || l.thread == some 0) = true := by
      decide +kernel
    refine Cfg.run_of_ne (s := Machine.initial) (Cfg.run_of_runLog hs) fun l hl e => ?_
    have hl := List.all_eq_true.mp hall l hl
    rw [e] at hl
    simp [h₀] at hl

end TrigEmit
