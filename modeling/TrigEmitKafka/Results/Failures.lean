import TrigEmitKafka.Rules.Turns
import TrigEmitKafka.Results.Safety

/-!
# Results — a failure changes nothing, a success is whole

* `all_or_nothing`: from every reachable table state, whatever its allocations and the calls to
  librdkafka and pthread answer, a call to the table that reports failure leaves everything that
  can be seen as it was, accepts no message, and leaves no object behind: only the capacity of the
  arrays may differ, and the retired records may have been freed.  One that reports success has
  done all of it.
-/

namespace TrigEmit

open Conc (exec)
open Conc.Logic (Allowed alone)
open Slots (put swapRemove map_swapRemove)
open Store (Heap)

/-- The call reported failure. -/
def Failed : (c : TableCall) → c.Ret → Prop
  | .setParam _ _, r => r ≠ .ok ()
  | .connect _,    r => r ≠ .ok ()
  | .unsetParam _, r => r ≠ 0
  | .create _,     r => r ≠ 0
  | .send _ _,     r => r < 0
  | .dismiss _,    r => r ≠ 0
  | _,             _ => False

/-- The pointers of the names of the records `tts`. -/
def Tab.namesOf (T : Tab) (tts : List Nat) : List Nat :=
  tts.filterMap fun tt => (T.topics.get tt).bind fun v => v.name.map (·.ptr)

/-- Of the retired records, those of `freed` are gone, with their names: none, or all. -/
structure Tab.Reaped (T : Tab) (freed : List Nat) (T' : Tab) : Prop where
  retired : freed = [] ∧ T'.kt.retired.items = T.kt.retired.items ∨
    freed = T.kt.retired.items ∧ T'.kt.retired.items = []
  topics : ∀ p, T'.topics.get p = if p ∈ freed then none else T.topics.get p
  strs : ∀ p, T'.strs.get p = if p ∈ T.namesOf freed then none else T.strs.get p

/-- What a call that failed leaves of `T` and `d`: the lists, the messages and every object are the
same.  Only the arrays' capacity may differ, and the retired records may have been freed. -/
structure Unchanged (t : Nat) (T : Tab) (d : Flow) (T' : Tab) (d' : Flow) : Prop where
  seen : T'.seen = T.seen
  accepted : d'.accepted = d.accepted
  /-- A message in flight still is, or its report was counted meanwhile. -/
  queue : ∃ new, d'.served = d.served ++ new ∧
    (uncounted d.inflight).Perm (new.map (·.msg) ++ uncounted d'.inflight)
  scratch : d'.scratch t = d.scratch t
  producer : T'.kt.producer = T.kt.producer
  params : T'.kt.params.items = T.kt.params.items
  topics : T'.kt.topics.items = T.kt.topics.items
  reaped : ∃ freed, T.Reaped freed T'
  /-- The arrays' memory is what their capacity says, and there is no other. -/
  arrays : T'.arrays.Holds (T'.kt.params.mem paramSize + (T'.kt.topics.mem topicSize +
    T'.kt.retired.mem topicSize))
  producers : ∀ p, T'.producers.get p = T.producers.get p
  confs : ∀ p, T'.confs.get p = T.confs.get p
  rks : ∀ p, T'.rks.get p = T.rks.get p
  rkts : ∀ p, T'.rkts.get p = T.rkts.get p
  threads : ∀ p, T'.threads.get p = T.threads.get p
  disposed : T'.disposed = T.disposed
  leaked : T'.leaked = T.leaked

/-- The entry of a registered topic has the name `n`. -/
def Named (n : CStr) (e : Nat × Option TekTopic) : Prop :=
  ∃ v s, e.2 = some v ∧ v.name = some s ∧ s.val = n

/-- There is a producer that runs: its instance was built from `conf`, its thread polls it. -/
def Tab.Runs (T : Tab) (conf : Conf) : Prop :=
  ∃ tk v rk, T.kt.producer = some tk ∧ T.producers.get tk = some v ∧ v.rk = some rk ∧
    T.rks.get rk = some ⟨conf⟩ ∧ v.running = true ∧ v.threadStarted = true ∧
    T.threads.get v.thread = some tk

/-- What a call that reported success has done. -/
def Succeeded (T : Tab) (d : Flow) (T' : Tab) (d' : Flow) : (c : TableCall) → c.Ret → Prop
  | .setParam name value, _ => ∃ n v, name = some n ∧ value = some v ∧ T.seen.connected = false ∧
      T'.seen = { T.seen with params := put n v T.seen.params } ∧ d'.accepted = d.accepted
  | .unsetParam name, _ => ∃ n i x, name = some n ∧ T.seen.connected = false ∧
      T.seen.params[i]? = some x ∧ x.1 = n ∧
      T'.seen = { T.seen with params := swapRemove i T.seen.params } ∧ d'.accepted = d.accepted
  | .connect brokers, _ => ∃ bs, brokers = some bs ∧ T.seen.connected = false ∧
      T'.seen = ⟨true, some bs, T.seen.params, []⟩ ∧
      T'.Runs ⟨producerDefaults bs ++ T.seen.params, true⟩ ∧ d'.accepted = d.accepted
  | .create topic, _ => ∃ n, topic = some n ∧ d'.accepted = d.accepted ∧
      ((∃ e ∈ T.seen.topics, Named n e) ∧ T'.seen = T.seen ∨
        (∀ e ∈ T.seen.topics, ¬ Named n e) ∧ T.seen.connected = true ∧
          ∃ p s h, s.val = n ∧ T'.seen =
            { T.seen with topics := T.seen.topics ++ [(p, some ⟨some s, some h, T.kt.producer⟩)] })
  | .send topic data, r => ∃ n e v m, topic = some n ∧ e ∈ T.seen.topics ∧ Named n e ∧
      r = data.length ∧ T'.seen = T.seen ∧ d'.accepted = d.accepted ++ [m] ∧ m.payload = data ∧
      m.key = none ∧ m.tt = e.1 ∧ e.2 = some v ∧ v.rkt = some m.rkt
  | .dismiss topic, _ => ∃ n i e, topic = some n ∧ T.seen.topics[i]? = some e ∧ Named n e ∧
      T'.seen = { T.seen with topics := swapRemove i T.seen.topics } ∧ d'.accepted = d.accepted
  | _, _ => True

/-! ### From what is observed to what is seen -/

theorem Obs.seen_topics (W : World) : W.obs.seen.topics = W.regs.map W.obs.record := rfl

theorem Obs.named_record (o : Obs) (r : Reg) : Named r.name.val (o.record r) :=
  ⟨_, _, rfl, rfl, rfl⟩

theorem World.seen_of_findTopic {W : World} {n : CStr} {i : Nat} {r : Reg}
    (hf : W.findTopic n = some (i, r)) :
    W.obs.seen.topics[i]? = some (W.obs.record r) ∧ Named n (W.obs.record r) := by
  obtain ⟨hi, rfl⟩ := World.findTopic_some hf
  exact ⟨by rw [Obs.seen_topics, List.getElem?_map, hi]; rfl, Obs.named_record _ _⟩

theorem World.not_named_of_findTopic {W : World} {n : CStr} (hf : W.findTopic n = none) :
    ∀ e ∈ W.obs.seen.topics, ¬ Named n e := by
  rintro e he ⟨v, s, hv, hs, rfl⟩
  rw [Obs.seen_topics] at he
  obtain ⟨r, hr, rfl⟩ := List.mem_map.mp he
  cases hv
  cases hs
  exact World.findTopic_none hf r hr rfl

/-- The world's producer runs. -/
theorem Tab.Is.runs {T : Tab} {W : World} (h : T.Is W.cells) {p : Producer}
    (hp : W.obs.producer = some p) : T.Runs p.conf := by
  obtain ⟨conn, hc, rfl⟩ := Option.map_eq_some_iff.mp hp
  refine ⟨conn.tk, _, conn.rk, ?_, h.producers.get (World.producer_mem hc), rfl,
    h.rks.get (World.rk_mem hc), rfl, rfl, ?_⟩
  · rw [h.kt]; simp [World.cells, World.kt, hc]
  · exact h.threads.get (by simp [World.cells, hc])

theorem World.obs_disconnected {W : World} (hc : W.conn = none) :
    W.obs.seen.connected = false ∧ W.obs = ⟨W.obs.params, none, []⟩ := by
  simp [Obs.seen, World.obs, World.regs, hc]

theorem cInt_of_le {n : Nat} (h : n ≤ messageMaxBytes) : cInt n = n := by
  unfold messageMaxBytes at h
  exact Int.bmod_eq_of_le (by omega) (by omega)

/-! ### From worlds to objects -/

/-- The retired records. -/
def World.olds (W : World) : List Old := W.conn.elim [] fun c => c.retired.items

theorem World.kt_retired (W : World) : W.kt.retired.items = W.olds.map (·.tt) := by
  cases h : W.conn <;> simp [kt, olds, h, CArray.null]

theorem World.arrays_eq (W : World) : W.cells.arrays = W.kt.params.mem paramSize +
    (W.kt.topics.mem topicSize + W.kt.retired.mem topicSize) := by
  cases h : W.conn <;>
    simp [cells, kt, h, Conn.arrays, CArray.mem, CArray.null, CArray.map, block]

/-- The records freed between two worlds are their only difference, with their names. -/
theorem World.Spare.cells {W W' : World} (h : W.Spare W') : ∃ freed : List Old,
    (freed = [] ∧ W'.olds = W.olds ∨ freed = W.olds ∧ W'.olds = []) ∧
    W.cells.topics = bag Old.cell freed + W'.cells.topics ∧
    W.cells.strs = bag (fun r => r.name.cell) freed + W'.cells.strs ∧
    W'.cells.producers = W.cells.producers ∧ W'.cells.rks = W.cells.rks ∧
    W'.cells.rkts = W.cells.rkts ∧ W'.cells.threads = W.cells.threads := by
  have hc := h.conn
  cases e : W.conn with
  | none =>
      rw [e] at hc
      cases e' : W'.conn with
      | some c' => rw [e'] at hc; cases hc
      | none =>
          refine ⟨[], Or.inl ⟨rfl, by rw [World.olds, World.olds, e, e']⟩, ?_⟩
          simp [World.cells, e, e', h.params, h.leaked]
  | some c =>
      rw [e] at hc
      cases e' : W'.conn with
      | none => rw [e'] at hc; cases hc
      | some c' =>
          rw [e'] at hc
          cases hc with
          | some hc =>
              have hp : c'.producer = c.producer := by
                simp only [Conn.producer, hc.producer]
              rcases hc.retired with hr | hr
              · refine ⟨[], Or.inl ⟨rfl, by simp [World.olds, e, e', hr]⟩, ?_⟩
                simp only [World.cells, e, e', Option.elim, Conn.records, Conn.strs, h.params,
                  h.leaked, hc.topics, hc.producer, hp, hr, bag_nil, zero_add, and_self]
              · refine ⟨c.retired.items, Or.inr ⟨by simp [World.olds, e], by
                  simp [World.olds, e', hr]⟩, ?_⟩
                simp only [World.cells, e, e', Option.elim, Conn.records, Conn.strs, h.params,
                  h.leaked, hc.topics, hc.producer, hp, hr, bag_nil, and_self, and_true]
                exact ⟨by abel, by abel⟩

theorem bag_fst {α : Type} (f : Old → Nat × α) (l : List Old) (p : Nat) :
    p ∈ (bag f l).map Prod.fst ↔ p ∈ l.map fun r => (f r).1 := by
  simp [bag]

/-- The names of retired records. -/
theorem Tab.Is.namesOf {T : Tab} {c : Cells} (h : T.Is c) {l : List Old}
    (hl : ∀ r ∈ l, r.cell ∈ c.topics) : T.namesOf (l.map (·.tt)) = l.map (·.name.ptr) := by
  induction l with
  | nil => rfl
  | cons r l ih =>
      have hget : T.topics.get r.tt = some r.cell.2 := h.topics.get (hl r List.mem_cons_self)
      rw [Tab.namesOf, List.map_cons, List.filterMap_cons, hget]
      exact congrArg _ (ih fun x hx => hl x (List.mem_cons_of_mem _ hx))

/-- What is the same in the worlds is the same in the heaps. -/
theorem Tab.Is.reaped {T T' : Tab} {W W' : World} (h : T.Is W.cells) (h' : T'.Is W'.cells)
    (hs : W.Spare W') : ∃ freed, T.Reaped freed T' := by
  obtain ⟨l, hl, htop, hstr, -⟩ := hs.cells
  have hkt : T.kt.retired.items = W.olds.map (·.tt) := by rw [h.kt]; exact W.kt_retired
  have hkt' : T'.kt.retired.items = W'.olds.map (·.tt) := by rw [h'.kt]; exact W'.kt_retired
  have hnames : T.namesOf (l.map (·.tt)) = l.map (·.name.ptr) := by
    refine h.namesOf fun r hr => ?_
    rw [htop]
    exact Multiset.mem_add.mpr (Or.inl (mem_bag hr))
  refine ⟨l.map (·.tt), ⟨?_, fun p => ?_, fun p => ?_⟩⟩
  · rw [hkt, hkt']
    rcases hl with ⟨rfl, e⟩ | ⟨rfl, e⟩
    · exact Or.inl ⟨rfl, by rw [e]⟩
    · exact Or.inr ⟨rfl, by rw [e]; rfl⟩
  · have hsub := Heap.Holds.get_sub (htop ▸ h.topics) h'.topics p
    exact hsub.trans (if_congr (bag_fst _ _ _) rfl rfl)
  · have hsub := Heap.Holds.get_sub (hstr ▸ h.strs) h'.strs p
    rw [hnames]
    exact hsub.trans (if_congr (bag_fst _ _ _) rfl rfl)

/-- Reports served meanwhile are the only change to the messages. -/
theorem Inv.queue {T T' : Tab} {d d' : Flow} (hi : Inv T d) (hi' : Inv T' d')
    (ha : d'.accepted = d.accepted) (hs : d.served <+: d'.served) :
    ∃ new, d'.served = d.served ++ new ∧
      (uncounted d.inflight).Perm (new.map (·.msg) ++ uncounted d'.inflight) := by
  obtain ⟨new, hnew⟩ := hs
  refine ⟨new, hnew.symm, ?_⟩
  have h := hi.conserved.symm
  rw [← ha] at h
  have h' := h.trans hi'.conserved
  rw [← hnew, List.map_append, List.append_assoc] at h'
  exact (List.perm_append_left_iff _).mp h'

/-! ### All or nothing -/

section effect

variable {W W' : World} {T T' : Tab} {d d' : Flow} {t : Nat} {b' : View} {F : Prop}

/-- A call that fails leaves the world, but for spare capacity and retired records. -/
theorem Effect.spare {c : TableCall} {r : c.Ret} (he : Effect F c W (View.of t T d) r W' b')
    (hf : Failed c r) : W.Spare W' ∧ (View.of t T d).Same b' := by
  cases c with
  | setParam name value => exact ⟨(he.2.2 hf).1, he.1⟩
  | connect brokers => exact ⟨(he.2.2.1 hf).1, he.1⟩
  | create topic => exact ⟨(he.2.1.fail hf).2.1, he.1⟩
  | send topic data =>
      obtain ⟨rfl, ⟨hr, hlen, -⟩ | ⟨-, rfl, -⟩⟩ := he
      · rw [hr] at hf
        have hneg : cInt data.length < 0 := hf
        rw [cInt_of_le hlen] at hneg
        exact absurd hneg (by omega)
      · exact ⟨.refl _, .refl _⟩
  | dismiss topic =>
      obtain ⟨hs, ⟨n, -, -, hd⟩ | ⟨-, -, rfl⟩⟩ := he
      · exact ⟨(hd.fail hf).2.1, hs⟩
      · exact ⟨.refl _, hs⟩
  | unsetParam name =>
      obtain ⟨hs, ⟨n, -, -, hu⟩ | ⟨-, -, rfl⟩⟩ := he
      · exact ⟨(hu.fail hf).2.1, hs⟩
      · exact ⟨.refl _, hs⟩
  | connected => exact hf.elim
  | validateParam name value => exact hf.elim
  | getBrokers buflen => exact hf.elim
  | describeParams buflen => exact hf.elim
  | «exists» topic => exact hf.elim
  | dismissAll => exact hf.elim
  | getStats topic => exact hf.elim

/-- A world that is the same but for spare capacity and retired records has the same objects. -/
theorem unchanged_of_spare (hT : T.Is W.cells) (hT' : T'.Is W'.cells) (hi : Inv T d)
    (hi' : Inv T' d') (hb : b'.Sees d') (ho : d'.scratch t = b'.scratch) (hs : W.Spare W')
    (hsame : (View.of t T d).Same b') : Unchanged t T d T' d' := by
  have hacc : d'.accepted = d.accepted := hb.acc.trans hsame.acc
  have hlo : d.served <+: d'.served := by
    have := hb.lo
    rwa [hsame.lo] at this
  obtain ⟨-, -, -, -, hprod, hrks, hrkts, hthr⟩ := hs.cells
  have hconn : W'.obs.producer = W.obs.producer := congrArg Obs.producer hs.obs
  exact {
    seen := by rw [hT.seen, hT'.seen, hs.obs]
    accepted := hacc
    queue := hi.queue hi' hacc hlo
    scratch := ho.trans hsame.scratch
    producer := by
      rw [hT.kt, hT'.kt]
      have htk := congrArg (Option.map Producer.tk) hconn
      simp only [World.obs, Option.map_map] at htk
      exact htk
    params := by rw [hT.kt, hT'.kt]; exact hs.params
    topics := by
      rw [hT.kt, hT'.kt]
      exact (W'.kt_topics.trans (by rw [hs.regs])).trans W.kt_topics.symm
    reaped := hT.reaped hT' hs
    arrays := by rw [hT'.kt]; exact W'.arrays_eq ▸ hT'.arrays
    producers := Heap.Holds.get_eq hT.producers (hprod ▸ hT'.producers)
    confs := Heap.Holds.get_eq hT.confs hT'.confs
    rks := Heap.Holds.get_eq hT.rks (hrks ▸ hT'.rks)
    rkts := Heap.Holds.get_eq hT.rkts (hrkts ▸ hT'.rkts)
    threads := Heap.Holds.get_eq hT.threads (hthr ▸ hT'.threads)
    disposed := by rw [hT.disposed, hT'.disposed]; exact hs.disposed
    leaked := by rw [hT.leaked, hT'.leaked]; exact congrArg (List.map (·.tt)) hs.leaked }

/-- A call that succeeds has done everything. -/
theorem Effect.whole {c : TableCall} {r : c.Ret} (hT : T.Is W.cells) (hT' : T'.Is W'.cells)
    (hb : b'.Sees d') (he : Effect F c W (View.of t T d) r W' b') (hf : ¬ Failed c r) :
    Succeeded T d T' d' c r := by
  have hs := hT.seen
  have hs' := hT'.seen
  have hacc : (View.of t T d).Same b' → d'.accepted = d.accepted := fun h => hb.acc.trans h.acc
  cases c with
  | setParam name value =>
      obtain rfl : r = .ok () := not_not.mp hf
      obtain ⟨hsame, hok, -⟩ := he
      obtain ⟨n, v, rfl, rfl, -, hset⟩ := hok rfl
      obtain ⟨hc, ho⟩ := hset.ok rfl
      refine ⟨n, v, rfl, rfl, hs ▸ (World.obs_disconnected hc).1, ?_, hacc hsame⟩
      rw [hs, hs', ho, (World.obs_disconnected hc).2]; rfl
  | unsetParam name =>
      obtain rfl : r = 0 := not_not.mp hf
      obtain ⟨hsame, ⟨n, rfl, -, hu⟩ | ⟨-, e, -⟩⟩ := he
      · obtain ⟨hc, i, x, hfirst, ho⟩ := hu.ok rfl
        obtain ⟨-, hi, hx⟩ := Slots.firstIdx_some hfirst
        refine ⟨n, i, x, rfl, hs ▸ (World.obs_disconnected hc).1, hs ▸ hi, of_decide_eq_true hx, ?_,
          hacc hsame⟩
        rw [hs, hs', ho, (World.obs_disconnected hc).2]; rfl
      · simp at e
  | connect brokers =>
      obtain rfl : r = .ok () := not_not.mp hf
      obtain ⟨hsame, hok, -⟩ := he
      obtain ⟨bs, rfl, -, hconn⟩ := hok rfl
      obtain ⟨hc, -, p, rfl, hconf, ho⟩ := hconn.ok rfl
      have hp : W'.obs.producer = some p := by rw [ho]
      refine ⟨p.brokers.val, rfl, hs ▸ (World.obs_disconnected hc).1, ?_, ?_, hacc hsame⟩
      · rw [hs, hs', ho, (World.obs_disconnected hc).2]; rfl
      · have hruns := hT'.runs hp
        rwa [hconf, show applied p.brokers.val W.params.items =
          ⟨producerDefaults p.brokers.val ++ T.seen.params, true⟩ by rw [hs]; rfl] at hruns
  | create topic =>
      obtain rfl : r = 0 := not_not.mp hf
      obtain ⟨hsame, hcr, -⟩ := he
      obtain ⟨n, rfl, ⟨⟨⟨i, reg⟩, hx⟩, ho⟩ | ⟨hnone, hc, -, reg, rfl, -, ho⟩⟩ := hcr.ok rfl
      · obtain ⟨hi, hn⟩ := World.seen_of_findTopic hx
        refine ⟨n, rfl, hacc hsame, Or.inl ⟨⟨_, ?_, hn⟩, by rw [hs, hs', ho]⟩⟩
        rw [hs]; exact List.mem_of_getElem? hi
      · obtain ⟨conn, hc⟩ := Option.isSome_iff_exists.mp hc
        refine ⟨reg.name.val, rfl, hacc hsame, Or.inr ⟨?_, ?_, reg.tt, reg.name, reg.rkt, rfl, ?_⟩⟩
        · rw [hs]; exact World.not_named_of_findTopic hnone
        · rw [hs]; simp [Obs.seen, World.obs, hc]
        · have hk : T.kt.producer = W.obs.producer.map (·.tk) := by
            rw [hT.kt]; simp [World.cells, World.kt, World.obs, hc]
          rw [hs, hs', ho, hk]
          simp only [Obs.seen, List.map_append, List.map_cons, List.map_nil]
          rfl
  | send topic data =>
      obtain ⟨rfl, ⟨hr, hlen, i, reg, id, hfind, rfl⟩ | ⟨rfl, -, -⟩⟩ := he
      · obtain ⟨n, rfl, hx⟩ := Option.bind_eq_some_iff.mp hfind
        obtain ⟨hi, hn⟩ := World.seen_of_findTopic hx
        refine ⟨n, W'.obs.record reg, _, _, rfl, ?_, hn, hr.trans (cInt_of_le hlen),
          by rw [hs, hs'], hb.acc, rfl, rfl, rfl, rfl, rfl⟩
        rw [hs]; exact List.mem_of_getElem? hi
      · exact absurd (show ((-1 : Int) < 0) by decide) hf
  | dismiss topic =>
      obtain rfl : r = 0 := not_not.mp hf
      obtain ⟨hsame, ⟨n, rfl, -, hd⟩ | ⟨-, e, -⟩⟩ := he
      · obtain ⟨i, reg, hx, ho⟩ := hd.ok rfl
        obtain ⟨hi, hn⟩ := World.seen_of_findTopic hx
        refine ⟨n, i, _, rfl, hs ▸ hi, hn, ?_, hacc hsame⟩
        rw [hs, hs', ho]
        simp only [Obs.seen, map_swapRemove]
        rfl
      · simp at e
  | connected => trivial
  | validateParam name value => trivial
  | getBrokers buflen => trivial
  | describeParams buflen => trivial
  | «exists» topic => trivial
  | dismissAll => trivial
  | getStats topic => trivial

end effect

/-- **All or nothing.**  From every reachable table state, whatever is answered from outside, a
call that reports failure leaves everything as it was but for spare capacity and retired records,
and one that reports success has done everything. -/
theorem all_or_nothing {s : Machine} (hs : s.Reachable) (hn : s.lock.NoWriter) {t : Nat}
    {c : TableCall} {course : Course} {r : c.Ret} {T' : Tab} {d' : Flow}
    (he : exec iface t (tableProg c) course s.sh s.fr = some (r, T', d')) :
    (Failed c r → Unchanged t s.sh s.fr T' d') ∧
      (¬ Failed c r → Succeeded s.sh s.fr T' d' c r) := by
  obtain ⟨W, hW, hT⟩ := hs.world hn
  obtain ⟨hi', W', b', hT', -, hb, ho, heff⟩ := exec_effect hs.inv hT hW
    (Conc.Logic.allowed_any course) he
  refine ⟨fun hf => ?_, heff.whole hT hT' hb⟩
  obtain ⟨hspare, hsame⟩ := heff.spare hf
  exact unchanged_of_spare hT hT' hs.inv hi' hb ho hspare hsame

/-- A first connect whose poll thread cannot be started: the seventeenth answer is the failure. -/
def noThread : Course :=
  List.replicate 16 (.ans .ok) ++ [.ans (.fail 0 "")] ++ List.replicate 9 (.ans .ok)

/-- The instance was built, and everything is as before. -/
theorem noThread_unchanged : ∃ r T' d',
    exec iface 0 (tableProg (.connect (some (.lit "b")))) noThread Tab.init Flow.init =
      some (r, T', d') ∧ T'.handed.length = 1 ∧ r.isOk = false ∧
      Unchanged 0 Tab.init Flow.init T' d' := by
  have hrun : (exec iface 0 (tableProg (.connect (some (.lit "b")))) noThread Tab.init
      Flow.init).map (fun x => (x.2.1.handed.length, x.1.isOk)) = some (1, false) := by
    decide +kernel
  obtain ⟨⟨r, T', d'⟩, he, hx⟩ := Option.map_eq_some_iff.mp hrun
  simp only [Prod.mk.injEq] at hx
  have hf : Failed (.connect (some (.lit "b"))) r := by
    rintro rfl; exact absurd hx.2 (by decide)
  have hall := (all_or_nothing (s := Machine.initial) .refl trivial he).1 hf
  exact ⟨r, T', d', he, hx.1, hx.2, hall⟩

end TrigEmit
