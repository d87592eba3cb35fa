import TrigEmitKafka.Rules.Inv

/-!
# Rules — one rule for each call

`Cells` is a whole `Tab` without the pointers not handed out yet: the static `kt`, and what each
heap holds.  A mode is `At h c b` when its guarded state is `c` and its view is `b`.  The rule of
a call says how it changes the two, and what it returns; a call that may fail fails only where
the setting allows such an answer (`MayFail`).
-/

namespace TrigEmit

open Store (Heap)
open Conc (Held Logic Mode Setting)
open Conc.Logic (Tr Safe)

/-- A `Tab`, by what its heaps hold. -/
@[ext]
structure Cells where
  kt : KafkaTables
  strs : Multiset (Nat × CStr)
  arrays : Multiset (Nat × Nat)
  topics : Multiset (Nat × TekTopic)
  producers : Multiset (Nat × TekKafka)
  confs : Multiset (Nat × Conf)
  rks : Multiset (Nat × RdKafka)
  rkts : Multiset (Nat × RdKafkaTopic)
  threads : Multiset (Nat × Nat)
  disposed : List Nat
  leaked : List Nat
  handed : List Conf

/-- `c` is what `T` holds. -/
structure Tab.Is (T : Tab) (c : Cells) : Prop where
  kt : T.kt = c.kt
  strs : T.strs.Holds c.strs
  arrays : T.arrays.Holds c.arrays
  topics : T.topics.Holds c.topics
  producers : T.producers.Holds c.producers
  confs : T.confs.Holds c.confs
  rks : T.rks.Holds c.rks
  rkts : T.rkts.Holds c.rkts
  threads : T.threads.Holds c.threads
  disposed : T.disposed = c.disposed
  leaked : T.leaked = c.leaked
  handed : T.handed = c.handed

/-- A string as a cell of its heap. -/
def Str.cell (s : Str) : Nat × CStr := (s.ptr, s.val)

/-- The memory of an array, as a cell of its heap. -/
def block : Option Nat → Nat → Multiset (Nat × Nat)
  | none,   _ => 0
  | some p, n => {(p, n)}

/-- The elements of `a` lie in its memory. -/
def CArray.Fits {α : Type} (arrays : Multiset (Nat × Nat)) (itemsize : Nat) (a : CArray α) : Prop :=
  a.items = [] ∨ ∃ p n, a.ptr = some p ∧ (p, n) ∈ arrays ∧ a.items.length * itemsize ≤ n

theorem CArray.Fits.inBounds {α : Type} {arrays : Multiset (Nat × Nat)} {h : Heap Nat} {n : Nat}
    {a : CArray α} (hh : h.Holds arrays) (ha : a.Fits arrays n) : a.InBounds h n := by
  rcases ha with h₀ | ⟨p, k, hp, hk, hl⟩
  · exact Or.inl h₀
  · exact Or.inr ⟨p, k, hp, hh.get hk, hl⟩

/-- The mode holds the lock as `h`, sees `c`, and knows `b`; every record `b` says may be named
is live. -/
structure At (h : Held) (c : Cells) (b : View) (m : Mode Tab View) : Prop where
  held : m.held = h
  sh : m.sh.Is c
  view : m.view = b
  named : ∀ p, b.named p → ∃ v, (p, v) ∈ c.topics

/-- The two views differ in what messages in flight may name, at most. -/
structure View.Same (b b' : View) : Prop where
  acc : b'.acc = b.acc
  lo : b'.lo = b.lo
  scratch : b'.scratch = b.scratch

theorem View.Same.refl (b : View) : b.Same b := ⟨rfl, rfl, rfl⟩

theorem View.Same.trans {b b' b'' : View} (h : b.Same b') (h' : b'.Same b'') : b.Same b'' :=
  ⟨h'.acc.trans h.acc, h'.lo.trans h.lo, h'.scratch.trans h.scratch⟩

/-- The view once nothing is in flight. -/
def View.drained (b : View) : View := { b with named := fun _ => False }

theorem View.same_drained (b : View) : b.Same b.drained := ⟨rfl, rfl, rfl⟩

theorem mem_head {α : Type} (a : α) (s : Multiset α) : a ∈ {a} + s :=
  Multiset.mem_add.mpr (Or.inl (Multiset.mem_singleton_self a))

theorem At.cast {h : Held} {c c' : Cells} {b : View} {m : Mode Tab View} (hm : At h c b m)
    (e : c = c') : At h c' b m := e ▸ hm

/-- Some call may fail. -/
def MayFail (S : Setting Tab View Ans) : Prop := ∃ err text, S.allows (.fail err text)

variable {S : Setting Tab View Ans} {m : Mode Tab View} {h : Held} {c : Cells} {b : View}

/-! ### From a call's action to its rule -/

/-- The rule of a call that leaves the unguarded state as it is. -/
theorem Tr.table {o : Op} {m : Mode Tab View} {Φ : o.Res → Mode Tab View → Prop}
    (hv : ∀ t d, Inv m.sh d → (S.Tracks m.held → m.view.Sees d) → o.Valid t m.held m.sh d)
    (ha : ∀ t a d r T' d', Inv m.sh d → (S.Tracks m.held → m.view.Sees d) → S.allows a →
      o.act t a m.sh d = some (r, T', d') →
      d.Alike d' ∧ Inv T' d ∧ Φ r ⟨m.held, T', m.view⟩) : logic.Tr S o m Φ := by
  intro t d hd ho hs
  refine ⟨hv t d hd hs, fun a r T' d' hok hact => ?_⟩
  obtain ⟨hfl, hi, hΦ⟩ := ha t a d r T' d' hd hs hok hact
  exact ⟨hi.flow hfl, m.view, (congrFun hfl.scratch t).trans ho, fun htr => (hs htr).flow hfl, hΦ⟩

/-- The rule of a call that changes nothing the invariant reads. -/
theorem Tr.quiet {o : Op} {m : Mode Tab View} {Φ : o.Res → Mode Tab View → Prop}
    (hv : ∀ t d, o.Valid t m.held m.sh d)
    (ha : ∀ t a d r T' d', S.allows a → o.act t a m.sh d = some (r, T', d') →
      d.Alike d' ∧ m.sh.Alike T' ∧ Φ r ⟨m.held, T', m.view⟩) : logic.Tr S o m Φ := by
  refine Tr.table (fun t d _ _ => hv t d) fun t a d r T' d' hd _ hok hact => ?_
  obtain ⟨hfl, ht, hΦ⟩ := ha t a d r T' d' hok hact
  exact ⟨hfl, hd.tab ht, hΦ⟩

/-- The rule of a call that only reads the guarded state. -/
theorem Tr.read {o : Op} {m : Mode Tab View} {Φ : o.Res → Mode Tab View → Prop} {v : o.Res}
    (hv : ∀ t d, o.Valid t m.held m.sh d)
    (ha : ∀ t a d r T' d', o.act t a m.sh d = some (r, T', d') → r = v ∧ T' = m.sh ∧ d' = d)
    (hΦ : Φ v m) : logic.Tr S o m Φ := by
  refine Tr.quiet hv fun t a d r T' d' _ hact => ?_
  obtain ⟨rfl, rfl, rfl⟩ := ha t a d r T' d' hact
  exact ⟨.refl _, ⟨rfl, rfl, rfl, rfl, rfl, rfl⟩, hΦ⟩

theorem At.ne_none (hm : At .wr c b m) : m.held ≠ .none := by rw [hm.held]; decide

theorem At.locked (hm : At h c b m) (hh : h ≠ .none) : m.held ≠ .none := by rwa [hm.held]

/-! ### Reads under the lock -/

theorem loadKt_spec (hm : At h c b m) (hh : h ≠ .none) :
    logic.Safe S (call .loadKt) m fun r m' => r = c.kt ∧ m' = m := by
  refine Safe.locked (hm.locked hh) (Tr.read (fun t d => hm.locked hh) (fun t a d r T' d' ha => ?_)
    ⟨hm.sh.kt, rfl⟩)
  cases ha; exact ⟨rfl, rfl, rfl⟩

theorem loadTopic_spec {p : Nat} {v : TekTopic} (hm : At h c b m) (hh : h ≠ .none)
    (hp : (p, v) ∈ c.topics) :
    logic.Safe S (call (.loadTopic p)) m fun r m' => r = v ∧ m' = m := by
  have hg := hm.sh.topics.get hp
  refine Safe.locked (hm.locked hh) (Tr.read (fun t d => ⟨hm.locked hh, Heap.live_of_get hg⟩)
    (fun t a d r T' d' ha => ?_) ⟨rfl, rfl⟩)
  obtain ⟨w, hw, e⟩ := Option.map_eq_some_iff.mp ha
  cases e; exact ⟨Option.some.inj (hw.symm.trans hg), rfl, rfl⟩

theorem loadTk_spec {p : Nat} {v : TekKafka} (hm : At h c b m) (hh : h ≠ .none)
    (hp : (p, v) ∈ c.producers) :
    logic.Safe S (call (.loadTk p)) m fun r m' => r = v ∧ m' = m := by
  have hg := hm.sh.producers.get hp
  refine Safe.locked (hm.locked hh) (Tr.read (fun t d => ⟨hm.locked hh, Heap.live_of_get hg⟩)
    (fun t a d r T' d' ha => ?_) ⟨rfl, rfl⟩)
  obtain ⟨w, hw, e⟩ := Option.map_eq_some_iff.mp ha
  cases e; exact ⟨Option.some.inj (hw.symm.trans hg), rfl, rfl⟩

theorem readStr_spec {s : Str} (hm : At h c b m) (hh : h ≠ .none) (hs : s.cell ∈ c.strs) :
    logic.Safe S (call (.readStr s)) m fun r m' => r = s.val ∧ m' = m := by
  have hg := hm.sh.strs.get hs
  refine Safe.locked (hm.locked hh) (Tr.read (fun t d => ⟨hm.locked hh, hg⟩)
    (fun t a d r T' d' ha => ?_) ⟨rfl, rfl⟩)
  cases ha; exact ⟨rfl, rfl, rfl⟩

/-! ### Strings and arrays -/

theorem strdup_spec {s : CStr} (hm : At .wr c b m) :
    logic.Safe S (call (.strdup s)) m fun (r : Option Str) m' =>
      (r = none ∧ MayFail S ∧ At .wr c b m') ∨
      ∃ x, r = some x ∧ x.val = s ∧ At .wr { c with strs := {x.cell} + c.strs } b m' := by
  refine Safe.locked hm.ne_none (Tr.quiet (fun t d => hm.held) fun t a d r T' d' hok ha => ?_)
  cases a with
  | queueFull => cases ha
  | ok =>
      cases ha
      refine ⟨.refl _, ⟨rfl, rfl, rfl, rfl, rfl, rfl⟩, Or.inr ⟨_, rfl, rfl, ?_⟩⟩
      exact ⟨hm.held, { hm.sh with strs := hm.sh.strs.alloc s }, hm.view, hm.named⟩
  | fail err text =>
      cases ha
      exact ⟨.refl _, ⟨rfl, rfl, rfl, rfl, rfl, rfl⟩, Or.inl ⟨rfl, ⟨_, _, hok⟩, hm⟩⟩

theorem freeStr_spec {p : Nat} {s : CStr} {rest : Multiset (Nat × CStr)} (hm : At .wr c b m)
    (hs : c.strs = {(p, s)} + rest) :
    logic.Safe S (call (.freeStr p)) m fun _ => At .wr { c with strs := rest } b := by
  have hg := hs ▸ hm.sh.strs
  refine Safe.locked hm.ne_none (Tr.quiet
    (fun t d => ⟨hm.held, Heap.live_of_get hg.get_head⟩) fun t a d r T' d' _ ha => ?_)
  cases ha
  refine ⟨.refl _, ⟨rfl, rfl, rfl, rfl, rfl, rfl⟩, ?_⟩
  exact ⟨hm.held, { hm.sh with strs := hg.free }, hm.view, hm.named⟩

theorem realloc_spec {old : Option Nat} {k n : Nat} {rest : Multiset (Nat × Nat)}
    (hm : At .wr c b m) (hs : c.arrays = block old k + rest) :
    logic.Safe S (call (.realloc old n)) m fun (r : Option Nat) m' =>
      (r = none ∧ MayFail S ∧ At .wr c b m') ∨
      ∃ p, r = some p ∧ n ≤ ptrdiffMax ∧
        At .wr { c with arrays := block (some p) n + rest } b m' := by
  refine Safe.locked hm.ne_none (Tr.quiet (fun t d => ⟨hm.held, fun p hp => ?_⟩)
    fun t a d r T' d' hok ha => ?_)
  · subst hp; exact Heap.live_of_get (hs ▸ hm.sh.arrays).get_head
  cases a with
  | queueFull => cases ha
  | ok =>
      simp only [Op.act] at ha
      split at ha
      · rename_i hn
        cases ha
        refine ⟨.refl _, ⟨rfl, rfl, rfl, rfl, rfl, rfl⟩,
          Or.inr ⟨_, rfl, hn, hm.held, ?_, hm.view, hm.named⟩⟩
        cases old with
        | none =>
            have hg : m.sh.arrays.Holds rest := by
              have := hs ▸ hm.sh.arrays; rwa [block, zero_add] at this
            exact { hm.sh with arrays := hg.alloc n }
        | some q =>
            have hg := (hs ▸ hm.sh.arrays : m.sh.arrays.Holds ({(q, k)} + rest)).free
            exact { hm.sh with arrays := hg.alloc n }
      · cases ha
  | fail err text =>
      cases ha
      exact ⟨.refl _, ⟨rfl, rfl, rfl, rfl, rfl, rfl⟩,
        Or.inl ⟨rfl, ⟨_, _, hok⟩, hm⟩⟩

theorem freeArray_spec {p k : Nat} {rest : Multiset (Nat × Nat)} (hm : At .wr c b m)
    (hs : c.arrays = {(p, k)} + rest) :
    logic.Safe S (call (.freeArray p)) m fun _ => At .wr { c with arrays := rest } b := by
  have hg := hs ▸ hm.sh.arrays
  refine Safe.locked hm.ne_none (Tr.quiet
    (fun t d => ⟨hm.held, Heap.live_of_get hg.get_head⟩) fun t a d r T' d' _ ha => ?_)
  cases ha
  refine ⟨.refl _, ⟨rfl, rfl, rfl, rfl, rfl, rfl⟩, ?_⟩
  exact ⟨hm.held, { hm.sh with arrays := hg.free }, hm.view, hm.named⟩

theorem storeKt_spec {kt : KafkaTables} (hm : At .wr c b m) (hp : kt.params.Fits c.arrays paramSize)
    (ht : kt.topics.Fits c.arrays topicSize) (hr : kt.retired.Fits c.arrays topicSize)
    (hfr : ∀ tk, kt.producer = some tk →
      (c.kt.producer = some tk ∧ kt.params.items = c.kt.params.items) ∨
      ∃ brokers, c.handed.getLast? = some (applied brokers kt.params.items) ∧
        ∀ v rk r, (tk, v) ∈ c.producers → v.rk = some rk → (rk, r) ∈ c.rks →
          r.conf = applied brokers kt.params.items) :
    logic.Safe S (call (.storeKt kt)) m fun _ => At .wr { c with kt := kt } b := by
  have ha := hm.sh.arrays
  refine Safe.locked hm.ne_none (Tr.table (fun t d _ _ =>
    ⟨hm.held, hp.inBounds ha, ht.inBounds ha, hr.inBounds ha⟩) fun t a d r T' d' hd _ _ hact => ?_)
  cases hact
  refine ⟨.refl _, { hd with frozen := fun tk htk => ?_ }, hm.held, { hm.sh with kt := rfl },
    hm.view, hm.named⟩
  rcases hfr tk htk with ⟨hk, hpar⟩ | ⟨brokers, hlast, hconf⟩
  · obtain ⟨brokers, hlast, hconf⟩ := hd.frozen tk (hm.sh.kt ▸ hk)
    rw [hm.sh.kt, ← hpar] at hlast hconf
    exact ⟨brokers, hlast, hconf⟩
  · refine ⟨brokers, hm.sh.handed ▸ hlast, fun v rk r hv hrk hr => ?_⟩
    exact hconf v rk r ((hm.sh.producers.2 _ _).mpr hv) hrk ((hm.sh.rks.2 _ _).mpr hr)

/-! ### Configurations and handles -/

theorem rdKafkaConfNew_spec (hm : At .wr c b m) :
    logic.Safe S (call .rdKafkaConfNew) m fun (r : Option Nat) m' =>
      (r = none ∧ MayFail S ∧ At .wr c b m') ∨
      ∃ p, r = some p ∧ At .wr { c with confs := {(p, ⟨[], false⟩)} + c.confs } b m' := by
  refine Safe.locked hm.ne_none (Tr.quiet (fun t d => hm.held) fun t a d r T' d' hok ha => ?_)
  cases a with
  | queueFull => cases ha
  | ok =>
      cases ha
      refine ⟨.refl _, ⟨rfl, rfl, rfl, rfl, rfl, rfl⟩, Or.inr ⟨_, rfl, ?_⟩⟩
      exact ⟨hm.held, { hm.sh with confs := hm.sh.confs.alloc _ }, hm.view, hm.named⟩
  | fail err text =>
      cases ha
      exact ⟨.refl _, ⟨rfl, rfl, rfl, rfl, rfl, rfl⟩, Or.inl ⟨rfl, ⟨_, _, hok⟩, hm⟩⟩

theorem rdKafkaConfSet_spec {p : Nat} {v : Conf} {rest : Multiset (Nat × Conf)}
    {name value : CStr} (hm : At .wr c b m) (hs : c.confs = {(p, v)} + rest) :
    logic.Safe S (call (.rdKafkaConfSet p name value)) m fun (r : Except String Unit) m' =>
      (∃ text, r = .error text ∧ MayFail S ∧ At .wr c b m') ∨
      r = .ok () ∧ At .wr
        { c with confs := {(p, { v with sets := v.sets ++ [(name, value)] })} + rest } b m' := by
  have hg := hs ▸ hm.sh.confs
  refine Safe.locked hm.ne_none (Tr.quiet (fun t d => ⟨hm.held, Heap.live_of_get hg.get_head⟩)
    fun t a d r T' d' hok ha => ?_)
  cases a with
  | queueFull => cases ha
  | ok =>
      obtain ⟨w, hw, e⟩ := Option.map_eq_some_iff.mp ha
      cases e
      obtain rfl : v = w := Option.some.inj (hg.get_head.symm.trans hw)
      refine ⟨.refl _, ⟨rfl, rfl, rfl, rfl, rfl, rfl⟩, Or.inr ⟨rfl, ?_⟩⟩
      exact ⟨hm.held, { hm.sh with confs := hg.set _ }, hm.view, hm.named⟩
  | fail err text =>
      cases ha
      exact ⟨.refl _, ⟨rfl, rfl, rfl, rfl, rfl, rfl⟩, Or.inl ⟨text, rfl, ⟨_, _, hok⟩, hm⟩⟩

theorem rdKafkaConfSetDrMsgCb_spec {p : Nat} {v : Conf} {rest : Multiset (Nat × Conf)}
    (hm : At .wr c b m) (hs : c.confs = {(p, v)} + rest) :
    logic.Safe S (call (.rdKafkaConfSetDrMsgCb p)) m fun _ =>
      At .wr { c with confs := {(p, { v with drMsgCb := true })} + rest } b := by
  have hg := hs ▸ hm.sh.confs
  refine Safe.locked hm.ne_none (Tr.quiet (fun t d => ⟨hm.held, Heap.live_of_get hg.get_head⟩)
    fun t a d r T' d' _ ha => ?_)
  obtain ⟨w, hw, e⟩ := Option.map_eq_some_iff.mp ha
  cases e
  obtain rfl : v = w := Option.some.inj (hg.get_head.symm.trans hw)
  refine ⟨.refl _, ⟨rfl, rfl, rfl, rfl, rfl, rfl⟩, ?_⟩
  exact ⟨hm.held, { hm.sh with confs := hg.set _ }, hm.view, hm.named⟩

theorem rdKafkaConfDestroy_spec {p : Nat} {v : Conf} {rest : Multiset (Nat × Conf)}
    (hm : At .wr c b m) (hs : c.confs = {(p, v)} + rest) :
    logic.Safe S (call (.rdKafkaConfDestroy p)) m fun _ =>
      At .wr { c with confs := rest } b := by
  have hg := hs ▸ hm.sh.confs
  refine Safe.locked hm.ne_none (Tr.quiet (fun t d => ⟨hm.held, Heap.live_of_get hg.get_head⟩)
    fun t a d r T' d' _ ha => ?_)
  cases ha
  refine ⟨.refl _, ⟨rfl, rfl, rfl, rfl, rfl, rfl⟩, ?_⟩
  exact ⟨hm.held, { hm.sh with confs := hg.free }, hm.view, hm.named⟩

theorem rdKafkaTopicNew_spec {rk : Nat} {x : RdKafka} {name : CStr} (hm : At .wr c b m)
    (hr : (rk, x) ∈ c.rks) :
    logic.Safe S (call (.rdKafkaTopicNew rk name)) m fun (r : Option Nat) m' =>
      (r = none ∧ MayFail S ∧ At .wr c b m') ∨
      ∃ p, r = some p ∧ At .wr { c with rkts := {(p, ⟨rk, name⟩)} + c.rkts } b m' := by
  refine Safe.locked hm.ne_none (Tr.quiet
    (fun t d => ⟨hm.held, Heap.live_of_get (hm.sh.rks.get hr)⟩) fun t a d r T' d' hok ha => ?_)
  cases a with
  | queueFull => cases ha
  | ok =>
      cases ha
      refine ⟨.refl _, ⟨rfl, rfl, rfl, rfl, rfl, rfl⟩, Or.inr ⟨_, rfl, ?_⟩⟩
      exact ⟨hm.held, { hm.sh with rkts := hm.sh.rkts.alloc _ }, hm.view, hm.named⟩
  | fail err text =>
      cases ha
      exact ⟨.refl _, ⟨rfl, rfl, rfl, rfl, rfl, rfl⟩, Or.inl ⟨rfl, ⟨_, _, hok⟩, hm⟩⟩

theorem rdKafkaTopicDestroy_spec {p : Nat} {v : RdKafkaTopic}
    {rest : Multiset (Nat × RdKafkaTopic)} (hm : At .wr c b m) (hs : c.rkts = {(p, v)} + rest) :
    logic.Safe S (call (.rdKafkaTopicDestroy p)) m fun _ =>
      At .wr { c with rkts := rest } b := by
  have hg := hs ▸ hm.sh.rkts
  refine Safe.locked hm.ne_none (Tr.quiet (fun t d => ⟨hm.held, Heap.live_of_get hg.get_head⟩)
    fun t a d r T' d' _ ha => ?_)
  cases ha
  refine ⟨.refl _, ⟨rfl, rfl, rfl, rfl, rfl, rfl⟩, ?_⟩
  exact ⟨hm.held, { hm.sh with rkts := hg.free }, hm.view, hm.named⟩

theorem leak_spec {p : Nat} {v : TekTopic} (hm : At .wr c b m) (hp : (p, v) ∈ c.topics) :
    logic.Safe S (call (.leak p)) m fun _ => At .wr { c with leaked := p :: c.leaked } b := by
  refine Safe.locked hm.ne_none (Tr.quiet
    (fun t d => ⟨hm.held, Heap.live_of_get (hm.sh.topics.get hp)⟩) fun t a d r T' d' _ ha => ?_)
  cases ha
  refine ⟨.refl _, ⟨rfl, rfl, rfl, rfl, rfl, rfl⟩, ?_⟩
  exact ⟨hm.held, { hm.sh with leaked := congrArg _ hm.sh.leaked }, hm.view, hm.named⟩

/-! ### Records -/

theorem storeTopic_spec {p : Nat} {v w : TekTopic} {rest : Multiset (Nat × TekTopic)}
    (hm : At .wr c b m) (hs : c.topics = {(p, v)} + rest) :
    logic.Safe S (call (.storeTopic p w)) m fun _ =>
      At .wr { c with topics := {(p, w)} + rest } b := by
  have hg := hs ▸ hm.sh.topics
  refine Safe.locked hm.ne_none (Tr.table
    (fun t d _ _ => ⟨hm.held, Heap.live_of_get hg.get_head⟩) fun t a d r T' d' hd _ _ ha => ?_)
  cases ha
  have hl : ∀ q, (m.sh.topics.set p w).Live q ↔ m.sh.topics.Live q := fun q => by
    simp only [Heap.Live, Heap.isSome_set]
  refine ⟨.refl _, { hd with
    named := fun q hq => (hl _).mpr (hd.named q hq)
    counted := fun q hq => hd.counted q ((hl q).mp hq) }, ?_⟩
  refine ⟨hm.held, { hm.sh with topics := hg.set w }, hm.view, fun q hq => ?_⟩
  obtain ⟨u, hu⟩ := hm.named q hq
  rw [hs, Multiset.mem_add, Multiset.mem_singleton] at hu
  rcases hu with hu | hu
  · cases hu; exact ⟨w, by simp⟩
  · exact ⟨u, by simp [hu]⟩

theorem mallocTopic_spec (hm : At .wr c b m) :
    logic.Safe S (call .mallocTopic) m fun (r : Option Nat) m' =>
      (r = none ∧ MayFail S ∧ At .wr c b m') ∨
      ∃ p, r = some p ∧ ¬ b.named p ∧ (∀ x ∈ b.acc, x.tt ≠ p) ∧
        At .wr { c with topics := {(p, .zero)} + c.topics } b m' := by
  refine Safe.locked hm.ne_none fun t d hd ho hs => ⟨hm.held, fun a r T' d' hok ha => ?_⟩
  have hv := hs (Or.inl hm.held)
  have hfresh : m.sh.topics.get m.sh.topics.next = none := m.sh.topics.fresh _ (le_refl _)
  cases a with
  | queueFull => cases ha
  | fail err text =>
      cases ha; exact ⟨hd, m.view, ho, fun _ => hv, Or.inl ⟨rfl, ⟨_, _, hok⟩, hm⟩⟩
  | ok =>
      cases ha
      have hnone : ∀ x ∈ d.accepted, x.tt ≠ m.sh.topics.next := fun x hx =>
        Nat.ne_of_lt (hd.known x hx)
      have hserved : ∀ x ∈ d.served, x.msg.tt ≠ m.sh.topics.next := fun x hx =>
        hnone _ (hd.conserved.mem_iff.mpr
          (List.mem_append_left _ (List.mem_map_of_mem (f := Served.msg) hx)))
      refine ⟨?_, m.view, ho, fun _ => ⟨hv.named, hv.acc, hv.lo⟩, Or.inr ⟨_, rfl, ?_, ?_, ?_⟩⟩
      · refine ⟨fun q hq => ?_, fun x hx => Nat.lt_succ_of_lt (hd.known x hx), hd.conserved,
          fun p hp => ?_, hd.polls, hd.alive, hd.one, hd.frozen⟩
        · obtain ⟨v, hv⟩ := Option.isSome_iff_exists.mp (hd.named q hq)
          exact Heap.live_of_get (Heap.get_alloc hv)
        · by_cases e : p = m.sh.topics.next
          · subst e
            simp only [Function.update_self]
            exact counted_zero hserved
          · rw [Heap.Live, Heap.get_alloc_ne e] at hp
            simp only [Function.update_of_ne e]
            exact hd.counted p hp
      · rintro hn
        obtain ⟨v, hv⟩ := hm.named _ hn
        rw [hm.sh.topics.get hv] at hfresh; cases hfresh
      · rw [← hm.view, ← hv.acc]; exact hnone
      · refine ⟨hm.held, { hm.sh with topics := hm.sh.topics.alloc _ }, hm.view, fun q hq => ?_⟩
        obtain ⟨u, hu⟩ := hm.named q hq
        exact ⟨u, by simp [hu]⟩

theorem freeTopic_spec {p : Nat} {v : TekTopic} {rest : Multiset (Nat × TekTopic)}
    (hm : At .wr c b m) (hs : c.topics = {(p, v)} + rest) (hrkt : v.rkt = none)
    (hn : ¬ b.named p) (hdis : p ∈ c.disposed ∨ ∀ x ∈ b.acc, x.tt ≠ p) :
    logic.Safe S (call (.freeTopic p)) m fun _ => At .wr { c with topics := rest } b := by
  have hg := hs ▸ hm.sh.topics
  have hnamed : ∀ d, m.view.Sees d → ∀ q ∈ d.inflight, q.msg.tt ≠ p := fun d hv q hq e =>
    hn (by rw [← hm.view, ← e]; exact hv.named q hq)
  refine Safe.locked hm.ne_none (Tr.table (fun t d _ hv => ?_) fun t a d r T' d' hd hv _ ha => ?_)
  · have hv := hv (Or.inl hm.held)
    refine ⟨hm.held, ⟨v, hg.get_head, hrkt⟩, hnamed d hv, ?_⟩
    rw [hm.sh.disposed, hv.acc, hm.view]; exact hdis
  · have hv := hv (Or.inl hm.held)
    cases ha
    have hl : ∀ q, q ≠ p → m.sh.topics.Live q → (m.sh.topics.free p).Live q := fun q hq hl => by
      rw [Heap.Live, Heap.get_free_ne hq]; exact hl
    refine ⟨.refl _, { hd with
      named := fun q hq => hl _ (hnamed d hv q hq) (hd.named q hq)
      counted := fun q hq => ?_ }, ?_⟩
    · obtain ⟨u, hu⟩ := Option.isSome_iff_exists.mp hq
      exact hd.counted q (Heap.live_of_get (Heap.get_free hu))
    · refine ⟨hm.held, { hm.sh with topics := hg.free }, hm.view, fun q hq => ?_⟩
      obtain ⟨u, hu⟩ := hm.named q hq
      rw [hs, Multiset.mem_add, Multiset.mem_singleton, Prod.mk.injEq] at hu
      exact ⟨u, hu.resolve_left fun e => hn (e.1 ▸ hq)⟩

theorem flushSuppressed_spec {p : Nat} {v : TekTopic} (hm : At .wr c b m)
    (hp : (p, v) ∈ c.topics) :
    logic.Safe S (call (.flushSuppressed p)) m fun _ =>
      At .wr { c with disposed := p :: c.disposed } b := by
  refine Safe.locked hm.ne_none fun t d hd ho hs =>
    ⟨⟨hm.held, Heap.live_of_get (hm.sh.topics.get hp)⟩, fun a r T' d' _ ha => ?_⟩
  have hv := hs (Or.inl hm.held)
  cases ha
  refine ⟨⟨hd.named, hd.known, hd.conserved, fun q hq => ?_, hd.polls, hd.alive, hd.one,
    hd.frozen⟩, m.view, ho, fun _ => ⟨hv.named, hv.acc, hv.lo⟩, ?_⟩
  · by_cases e : q = p
    · subst e
      simp only [Function.update_self]
      exact counted_dispose (hd.counted q hq)
    · simp only [Function.update_of_ne e]
      exact hd.counted q hq
  · exact ⟨hm.held, { hm.sh with disposed := congrArg _ hm.sh.disposed }, hm.view, hm.named⟩

/-! ### The producer, its instance and its thread -/

theorem mallocTk_spec (hm : At .wr c b m) (hk : c.kt.producer = none) :
    logic.Safe S (call .mallocTk) m fun (r : Option Nat) m' =>
      (r = none ∧ MayFail S ∧ At .wr c b m') ∨
      ∃ p, r = some p ∧ At .wr { c with producers := {(p, .zero)} + c.producers } b m' := by
  refine Safe.locked hm.ne_none (Tr.table (fun t d _ _ => hm.held) fun t a d r T' d' hd _ hok ha => ?_)
  cases a with
  | queueFull => cases ha
  | fail err text => cases ha; exact ⟨.refl _, hd, Or.inl ⟨rfl, ⟨_, _, hok⟩, hm⟩⟩
  | ok =>
      cases ha
      refine ⟨.refl _, { hd with polls := fun thr tk ht => ?_, frozen := fun tk htk => ?_ },
        Or.inr ⟨_, rfl, ?_⟩⟩
      · obtain ⟨v, rk, hv, hrk, hl⟩ := hd.polls thr tk ht
        exact ⟨v, rk, Heap.get_alloc hv, hrk, hl⟩
      · exact absurd ((hm.sh.kt ▸ htk).symm.trans hk) (by simp)
      · exact ⟨hm.held, { hm.sh with producers := hm.sh.producers.alloc _ }, hm.view, hm.named⟩

/-- Either the instance stays, or no thread polls it and it goes away or is not in use yet. -/
theorem storeTk_spec {p : Nat} {v w : TekKafka} {rest : Multiset (Nat × TekKafka)}
    (hm : At .wr c b m) (hs : c.producers = {(p, v)} + rest)
    (hrk : w.rk = v.rk ∨
      (∀ thr, (thr, p) ∉ c.threads) ∧ (w.rk = none ∨ c.kt.producer ≠ some p)) :
    logic.Safe S (call (.storeTk p w)) m fun _ =>
      At .wr { c with producers := {(p, w)} + rest } b := by
  have hg := hs ▸ hm.sh.producers
  refine Safe.locked hm.ne_none (Tr.table
    (fun t d _ _ => ⟨hm.held, Heap.live_of_get hg.get_head⟩) fun t a d r T' d' hd _ _ ha => ?_)
  cases ha
  refine ⟨.refl _, { hd with polls := fun thr tk ht => ?_, frozen := fun tk htk => ?_ }, hm.held,
    { hm.sh with producers := hg.set w }, hm.view, hm.named⟩
  · obtain ⟨u, rk, hu, huk, hl⟩ := hd.polls thr tk ht
    by_cases e : tk = p
    · subst e
      obtain rfl : v = u := Option.some.inj (hg.get_head.symm.trans hu)
      rcases hrk with hrk | ⟨hno, -⟩
      · exact ⟨w, rk, Heap.get_set_self hu, hrk.trans huk, hl⟩
      · exact absurd ((hm.sh.threads.2 _ _).mpr ht) (hno thr)
    · exact ⟨u, rk, (Heap.get_set_ne e).trans hu, huk, hl⟩
  · obtain ⟨brokers, hlast, hconf⟩ := hd.frozen tk htk
    refine ⟨brokers, hlast, fun u rk r hu huk hr => ?_⟩
    by_cases e : tk = p
    · subst e
      obtain rfl : w = u := Option.some.inj ((Heap.get_set_self hg.get_head).symm.trans hu)
      rcases hrk with hrk | ⟨-, hnone | hne⟩
      · exact hconf v rk r hg.get_head (hrk ▸ huk) hr
      · rw [hnone] at huk; cases huk
      · exact absurd (hm.sh.kt ▸ htk) hne
    · exact hconf u rk r ((Heap.get_set_ne e).symm.trans hu) huk hr

theorem freeTk_spec {p : Nat} {v : TekKafka} {rest : Multiset (Nat × TekKafka)}
    (hm : At .wr c b m) (hs : c.producers = {(p, v)} + rest)
    (hno : ∀ thr, (thr, p) ∉ c.threads) :
    logic.Safe S (call (.freeTk p)) m fun _ => At .wr { c with producers := rest } b := by
  have hg := hs ▸ hm.sh.producers
  have hno' : ∀ thr, m.sh.threads.get thr ≠ some p := fun thr ht =>
    hno thr ((hm.sh.threads.2 _ _).mpr ht)
  refine Safe.locked hm.ne_none (Tr.table
    (fun t d _ _ => ⟨hm.held, Heap.live_of_get hg.get_head, hno'⟩) fun t a d r T' d' hd _ _ ha => ?_)
  cases ha
  refine ⟨.refl _, { hd with polls := fun thr tk ht => ?_, frozen := fun tk htk => ?_ }, hm.held,
    { hm.sh with producers := hg.free }, hm.view, hm.named⟩
  · obtain ⟨u, rk, hu, huk, hl⟩ := hd.polls thr tk ht
    have e : tk ≠ p := fun e => hno' thr (e ▸ ht)
    exact ⟨u, rk, (Heap.get_free_ne e).trans hu, huk, hl⟩
  · obtain ⟨brokers, hlast, hconf⟩ := hd.frozen tk htk
    exact ⟨brokers, hlast, fun u rk r hu => hconf u rk r (Heap.get_free hu)⟩

theorem rdKafkaNew_spec {p : Nat} {v : Conf} {rest : Multiset (Nat × Conf)} (hm : At .wr c b m)
    (hs : c.confs = {(p, v)} + rest) (hr : c.rks = 0) (hk : c.kt.producer = none) :
    logic.Safe S (call (.rdKafkaNew p)) m fun (r : Except String Nat) m' =>
      (∃ text, r = .error text ∧ MayFail S ∧
        At .wr { c with handed := c.handed ++ [v] } b m') ∨
      ∃ rk, r = .ok rk ∧ At .wr
        { c with confs := rest, rks := {(rk, ⟨v⟩)}, handed := c.handed ++ [v] } b m' := by
  have hg := hs ▸ hm.sh.confs
  refine Safe.locked hm.ne_none (Tr.table
    (fun t d _ _ => ⟨hm.held, Heap.live_of_get hg.get_head⟩) fun t a d r T' d' hd _ hok ha => ?_)
  have hfr : ∀ T' : Tab, T'.kt = m.sh.kt → T'.Frozen := fun T' hT tk htk => by
    rw [hT, hm.sh.kt, hk] at htk; cases htk
  cases a with
  | queueFull => cases ha
  | fail err text =>
      obtain ⟨w, hw, e⟩ := Option.map_eq_some_iff.mp ha
      cases e
      obtain rfl : v = w := Option.some.inj (hg.get_head.symm.trans hw)
      refine ⟨.refl _, { hd with frozen := hfr _ rfl }, Or.inl ⟨text, rfl, ⟨_, _, hok⟩, ?_⟩⟩
      exact ⟨hm.held, { hm.sh with handed := congrArg (· ++ [v]) hm.sh.handed }, hm.view, hm.named⟩
  | ok =>
      obtain ⟨w, hw, e⟩ := Option.map_eq_some_iff.mp ha
      cases e
      obtain rfl : v = w := Option.some.inj (hg.get_head.symm.trans hw)
      have hnone : ∀ q, m.sh.rks.get q = none := (hr ▸ hm.sh.rks : m.sh.rks.Holds 0).get_zero
      have hl : ∀ q, (m.sh.rks.alloc ⟨v⟩).Live q → q = m.sh.rks.next := fun q hq => by
        by_contra e
        rw [Heap.Live, Heap.get_alloc_ne e, hnone] at hq; cases hq
      refine ⟨.refl _, { hd with
        polls := fun thr tk ht => ?_
        one := fun q q' hq hq' => (hl q hq).trans (hl q' hq').symm
        frozen := hfr _ rfl }, Or.inr ⟨_, rfl, ?_⟩⟩
      · obtain ⟨u, rk, -, -, hlive⟩ := hd.polls thr tk ht
        rw [Heap.Live, hnone] at hlive; cases hlive
      · refine ⟨hm.held, { hm.sh with
          confs := hg.free
          rks := ?_
          handed := congrArg (· ++ [v]) hm.sh.handed }, hm.view, hm.named⟩
        have := hm.sh.rks.alloc ⟨v⟩
        rwa [hr, add_zero] at this

theorem rdKafkaDestroy_spec {p : Nat} {v : RdKafka} (hm : At .wr c b m) (hs : c.rks = {(p, v)})
    (hrkts : c.rkts = 0) (hthr : c.threads = 0) :
    logic.Safe S (call (.rdKafkaDestroy p)) m fun _ =>
      At .wr { c with rks := 0 } b.drained := by
  have hg : m.sh.rks.Holds ({(p, v)} + 0) := by rw [add_zero]; exact hs ▸ hm.sh.rks
  have hno : ∀ thr, m.sh.threads.get thr = none :=
    (hthr ▸ hm.sh.threads : m.sh.threads.Holds 0).get_zero
  have hnok : ∀ q, m.sh.rkts.get q = none := (hrkts ▸ hm.sh.rkts : m.sh.rkts.Holds 0).get_zero
  refine Safe.locked hm.ne_none fun t d hd ho hs => ⟨⟨hm.held, Heap.live_of_get hg.get_head,
    fun q k hq => ?_, fun thr q tk ht => ?_⟩, fun a r T' d' _ ha => ?_⟩
  · rw [hnok q] at hq; cases hq
  · rw [hno thr] at ht; cases ht
  · have hv := hs (Or.inl hm.held)
    simp only [iface, Op.act] at ha
    split at ha
    · rename_i hempty
      cases ha
      have hl : ∀ q, ¬ (m.sh.rks.free p).Live q := fun q hq => by
        rw [Heap.Live, hg.free.get_zero] at hq; cases hq
      refine ⟨⟨hd.named, hd.known, hd.conserved, hd.counted, fun thr tk ht => ?_, hd.alive,
        fun q _ hq _ => absurd hq (hl q), fun tk htk => ?_⟩, b.drained,
        ?_, fun _ => ⟨fun q hq => ?_, ?_, ?_⟩, hm.held, { hm.sh with rks := hg.free }, rfl,
        fun q hq => hq.elim⟩
      · rw [hno thr] at ht; cases ht
      · obtain ⟨brokers, hlast, hconf⟩ := hd.frozen tk htk
        exact ⟨brokers, hlast, fun u rk r hu huk hr => hconf u rk r hu huk (Heap.get_free hr)⟩
      · exact hm.view ▸ ho
      · rw [hempty] at hq; cases hq
      · exact hm.view ▸ hv.acc
      · exact hm.view ▸ hv.lo
    · cases ha

theorem pthreadCreate_spec {tk rk : Nat} {v : TekKafka} {x : RdKafka} (hm : At .wr c b m)
    (hp : (tk, v) ∈ c.producers) (hrk : v.rk = some rk) (hr : (rk, x) ∈ c.rks) :
    logic.Safe S (call (.pthreadCreate tk)) m fun (r : Option Nat) m' =>
      (r = none ∧ MayFail S ∧ At .wr c b m') ∨
      ∃ thr, r = some thr ∧ At .wr { c with threads := {(thr, tk)} + c.threads } b m' := by
  have hlive := Heap.live_of_get (hm.sh.rks.get hr)
  refine Safe.locked hm.ne_none fun t d hd ho hs =>
    ⟨⟨hm.held, v, rk, hm.sh.producers.get hp, hrk, hlive⟩, fun a r T' d' hok ha => ?_⟩
  cases a with
  | queueFull => cases ha
  | fail err text => cases ha; exact ⟨hd, m.view, ho, hs, Or.inl ⟨rfl, ⟨_, _, hok⟩, hm⟩⟩
  | ok =>
      cases ha
      refine ⟨⟨hd.named, hd.known, hd.conserved, hd.counted, fun thr q ht => ?_,
        fun thr hthr => ?_, hd.one, hd.frozen⟩, m.view, ho,
        fun htr => ⟨(hs htr).named, (hs htr).acc, (hs htr).lo⟩, Or.inr ⟨_, rfl, ?_⟩⟩
      · by_cases e : thr = m.sh.threads.next
        · subst e
          rw [Heap.get_alloc_next] at ht; cases ht
          exact ⟨v, rk, hm.sh.producers.get hp, hrk, hlive⟩
        · rw [Heap.get_alloc_ne e] at ht; exact hd.polls thr q ht
      · by_cases e : thr = m.sh.threads.next
        · subst e; exact Heap.live_of_get (Heap.get_alloc_next _ _)
        · simp only [Function.update_of_ne e] at hthr
          obtain ⟨q, hq⟩ := Option.isSome_iff_exists.mp (hd.alive thr hthr)
          exact Heap.live_of_get (Heap.get_alloc hq)
      · exact ⟨hm.held, { hm.sh with threads := hm.sh.threads.alloc tk }, hm.view, hm.named⟩

theorem pthreadJoin_spec {thr tk : Nat} {rest : Multiset (Nat × Nat)} (hm : At .wr c b m)
    (hs : c.threads = {(thr, tk)} + rest) :
    logic.Safe S (call (.pthreadJoin thr)) m fun _ => At .wr { c with threads := rest } b := by
  have hg := hs ▸ hm.sh.threads
  refine Safe.locked hm.ne_none (Tr.table
    (fun t d _ _ => ⟨hm.held, Heap.live_of_get hg.get_head⟩) fun t a d r T' d' hd _ _ ha => ?_)
  simp only [Op.act] at ha
  split at ha
  · rename_i hph
    cases ha
    refine ⟨.refl _, { hd with polls := fun u q ht => ?_, alive := fun u hu => ?_ }, hm.held,
      { hm.sh with threads := hg.free }, hm.view, hm.named⟩
    · exact hd.polls u q (Heap.get_free ht)
    · have e : u ≠ thr := fun e => hu (e ▸ hph)
      rw [Heap.Live, Heap.get_free_ne e]; exact hd.alive u hu
  · cases ha

/-! ### Deliveries -/

/-- A drained queue names no record. -/
theorem rdKafkaOutqLen_spec {rk : Nat} {x : RdKafka} (hm : At h c b m) (hh : h ≠ .none)
    (hr : (rk, x) ∈ c.rks) :
    logic.Safe S (call (.rdKafkaOutqLen rk)) m fun (r : Nat) m' =>
      (r = 0 ∧ At h c b.drained m') ∨ (0 < r ∧ At h c b m') := by
  refine Safe.locked (hm.locked hh) fun t d hd ho hs =>
    ⟨⟨hm.locked hh, Heap.live_of_get (hm.sh.rks.get hr)⟩, fun a r T' d' _ ha => ?_⟩
  cases ha
  cases hl : d.inflight with
  | nil =>
      refine ⟨hd, b.drained, hm.view ▸ ho, fun htr => ⟨fun q hq => ?_, ?_, ?_⟩,
        Or.inl ⟨rfl, hm.held, hm.sh, rfl, fun q hq => hq.elim⟩⟩
      · rw [hl] at hq; cases hq
      · exact hm.view ▸ (hs htr).acc
      · exact hm.view ▸ (hs htr).lo
  | cons q qs => exact ⟨hd, m.view, ho, hs, Or.inr ⟨Nat.succ_pos _, hm⟩⟩

theorem serveBegin_spec {rk : Nat} {x : RdKafka} (hm : At h c b m) (hh : h ≠ .none)
    (hr : (rk, x) ∈ c.rks) : logic.Safe S (call (.serveBegin rk)) m fun _ => At h c b := by
  refine Safe.locked (hm.locked hh) (Tr.quiet
    (fun t d => ⟨hm.locked hh, Heap.live_of_get (hm.sh.rks.get hr)⟩) fun t a d r T' d' _ ha => ?_)
  cases ha; exact ⟨⟨rfl, rfl, rfl, rfl, rfl, rfl⟩, ⟨rfl, rfl, rfl, rfl, rfl, rfl⟩, hm⟩

theorem serveEnd_spec (hm : At h c b m) (hh : h ≠ .none) :
    logic.Safe S (call .serveEnd) m fun _ => At h c b := by
  refine Safe.locked (hm.locked hh) (Tr.quiet (fun t d => hm.locked hh) fun t a d r T' d' _ ha => ?_)
  cases ha; exact ⟨⟨rfl, rfl, rfl, rfl, rfl, rfl⟩, ⟨rfl, rfl, rfl, rfl, rfl, rfl⟩, hm⟩

/-- The view after a message to `tt` was accepted. -/
def View.sent (b : View) (x : Message) : View :=
  { b with named := fun p => p = x.tt ∨ b.named p, acc := b.acc ++ [x] }

theorem uncounted_append (qs qs' : List Pending) :
    uncounted (qs ++ qs') = uncounted qs ++ uncounted qs' := by
  simp [uncounted, List.filter_append]

theorem rdKafkaProduce_spec {rkt tt : Nat} {v : TekTopic} {k : RdKafkaTopic} {x : RdKafka}
    {payload : List UInt8} {key : Option (List UInt8)} (hm : At h c b m) (hh : h ≠ .none)
    (ht : (tt, v) ∈ c.topics) (hk : (rkt, k) ∈ c.rkts) (hr : (k.rk, x) ∈ c.rks) :
    logic.Safe S (call (.rdKafkaProduce rkt payload key tt)) m
      fun (r : Except RespErr Unit) m' =>
        (r = .ok () ∧ payload.length ≤ messageMaxBytes ∧
          ∃ id, At h c (b.sent ⟨id, rkt, key, payload, tt⟩) m') ∨
        (r = .error queueFull ∧ At h c b m') ∨
        ∃ err, r = .error err ∧ MayFail S ∧ At h c b m' := by
  have hlt := hm.sh.topics.get ht
  refine Safe.locked (hm.locked hh) fun t d hd ho hs =>
    ⟨⟨hm.locked hh, Heap.live_of_get hlt, k, hm.sh.rkts.get hk,
      Heap.live_of_get (hm.sh.rks.get hr)⟩, fun a r T' d' hok ha => ?_⟩
  cases a with
  | queueFull => cases ha; exact ⟨hd, m.view, ho, hs, Or.inr (Or.inl ⟨rfl, hm⟩)⟩
  | fail err text =>
      cases ha; exact ⟨hd, m.view, ho, hs, Or.inr (Or.inr ⟨err, rfl, ⟨_, _, hok⟩, hm⟩)⟩
  | ok =>
      simp only [iface, Op.act] at ha
      split at ha
      · rename_i hlen
        cases ha
        refine ⟨⟨fun q hq => ?_, fun y hy => ?_, ?_, hd.counted, hd.polls, hd.alive, hd.one,
          hd.frozen⟩, b.sent ⟨d.accepted.length, rkt, key, payload, tt⟩, ?_,
          fun htr => ⟨fun q hq => ?_, ?_, ?_⟩, Or.inl ⟨rfl, hlen, _, hm.held, hm.sh, rfl,
          fun q hq => ?_⟩⟩
        · rcases List.mem_append.mp hq with hq | hq
          · exact hd.named q hq
          · cases List.mem_singleton.mp hq; exact Heap.live_of_get hlt
        · rcases List.mem_append.mp hy with hy | hy
          · exact hd.known y hy
          · cases List.mem_singleton.mp hy; exact Heap.lt_next hlt
        · simp only [uncounted_append, ← List.append_assoc]
          exact hd.conserved.append_right _
        · exact hm.view ▸ ho
        · rcases List.mem_append.mp hq with hq | hq
          · exact Or.inr (hm.view ▸ (hs htr).named q hq)
          · cases List.mem_singleton.mp hq; exact Or.inl rfl
        · exact congrArg (· ++ _) (hm.view ▸ (hs htr).acc)
        · exact hm.view ▸ (hs htr).lo
        · rcases hq with rfl | hq
          · exact ⟨v, ht⟩
          · exact hm.named q hq
      · cases ha

theorem loadTransferred_spec {p : Nat} {v : TekTopic} (hm : At h c b m) (hh : h ≠ .none)
    (hp : (p, v) ∈ c.topics) :
    logic.Safe S (call (.loadTransferred p)) m fun (r : UInt32) m' =>
      ∃ s, (S.Tracks h → b.lo <+: s) ∧ r = UInt32.ofNat (successes p s) ∧
        At h c { b with lo := s } m' := by
  have hl := Heap.live_of_get (hm.sh.topics.get hp)
  refine Safe.locked (hm.locked hh) fun t d hd ho hs =>
    ⟨⟨hm.locked hh, hl⟩, fun a r T' d' _ ha => ?_⟩
  cases ha
  refine ⟨hd, { b with lo := d.served }, hm.view ▸ ho, fun htr => ⟨?_, ?_, List.prefix_refl _⟩,
    d.served, fun htr => ?_, (hd.counted p hl).1, hm.held, hm.sh, rfl, hm.named⟩
  · exact hm.view ▸ (hs htr).named
  · exact hm.view ▸ (hs htr).acc
  · exact hm.view ▸ (hs (hm.held ▸ htr)).lo

theorem loadFailed_spec {p : Nat} {v : TekTopic} (hm : At h c b m) (hh : h ≠ .none)
    (hp : (p, v) ∈ c.topics) :
    logic.Safe S (call (.loadFailed p)) m fun (r : UInt32) m' =>
      ∃ s, (S.Tracks h → b.lo <+: s) ∧ r = UInt32.ofNat (failures p s) ∧
        At h c { b with lo := s } m' := by
  have hl := Heap.live_of_get (hm.sh.topics.get hp)
  refine Safe.locked (hm.locked hh) fun t d hd ho hs =>
    ⟨⟨hm.locked hh, hl⟩, fun a r T' d' _ ha => ?_⟩
  cases ha
  refine ⟨hd, { b with lo := d.served }, hm.view ▸ ho, fun htr => ⟨?_, ?_, List.prefix_refl _⟩,
    d.served, fun htr => ?_, (hd.counted p hl).2, hm.held, hm.sh, rfl, hm.named⟩
  · exact hm.view ▸ (hs htr).named
  · exact hm.view ▸ (hs htr).acc
  · exact hm.view ▸ (hs (hm.held ▸ htr)).lo

end TrigEmit
