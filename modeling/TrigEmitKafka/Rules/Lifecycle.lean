import TrigEmitKafka.Rules.Inv
import TrigEmitKafka.Support.Ledger

/-!
# Rules — the ledger of the module's objects

An object is a string, an array, a record, a producer, a configuration, an instance of librdkafka,
a topic handle or a poll thread, with its pointer; the throwaway configurations of
`kafka_table_validate_param` are a kind of their own.  `Op.gain` and `Op.loss` say which object a
call acquires and which it releases, by its result: `rd_kafka_new` releases the configuration it is
given when it succeeds, and only then; `realloc` releases the old array when it succeeds.

`Kept` is what a run keeps of its log and its state: the log is balanced with the objects that are
there, and every event of it is `Lawful` after those before it.  `Kept.op` and `Kept.env` are the
two steps.
-/

namespace TrigEmit

open Conc (Held)
open Ledger (Book Each Stock)
open Ledger.Stock (Moved moved_alloc moved_free moved_set ofHeap)
open Store (Heap)

/-- The kinds of objects the module acquires. -/
inductive Kind where
  | str
  | array
  | record
  | producer
  | conf
  | rk
  | rkt
  | thread
  | scratch
  deriving DecidableEq

/-- An object: its kind, and its pointer. -/
abbrev Obj := Kind × Nat

/-- A call that returned, with its result. -/
abbrev Done := (o : Op) × o.Res

/-- The object a call acquires. -/
def Op.gain : (o : Op) → o.Res → Option Obj
  | .strdup _,            some s => some (.str, s.ptr)
  | .realloc _ _,         some p => some (.array, p)
  | .mallocTopic,         some p => some (.record, p)
  | .mallocTk,            some p => some (.producer, p)
  | .rdKafkaConfNew,      some p => some (.conf, p)
  | .rdKafkaNew _,        .ok p  => some (.rk, p)
  | .rdKafkaTopicNew _ _, some p => some (.rkt, p)
  | .pthreadCreate _,     some p => some (.thread, p)
  | .scratchNew,          some p => some (.scratch, p)
  | _,                    _      => none

/-- The object a call releases. -/
def Op.loss : (o : Op) → o.Res → Option Obj
  | .freeStr p,           _      => some (.str, p)
  | .realloc (some p) _,  some _ => some (.array, p)
  | .freeArray p,         _      => some (.array, p)
  | .freeTopic p,         _      => some (.record, p)
  | .freeTk p,            _      => some (.producer, p)
  | .rdKafkaConfDestroy p, _     => some (.conf, p)
  | .rdKafkaNew p,        .ok _  => some (.conf, p)
  | .rdKafkaDestroy p,    _      => some (.rk, p)
  | .rdKafkaTopicDestroy p, _    => some (.rkt, p)
  | .pthreadJoin p,       _      => some (.thread, p)
  | .scratchDestroy p,    _      => some (.scratch, p)
  | _,                    _      => none

/-- The book of the module's calls. -/
def book : Book Done Obj := ⟨fun e => e.1.gain e.2, fun e => e.1.loss e.2⟩

/-! ### What a call does to the objects -/

/-- The objects of a kind. -/
def stockOf (T : Tab) (d : Flow) : Kind → Stock Nat
  | .str      => ofHeap T.strs
  | .array    => ofHeap T.arrays
  | .record   => ofHeap T.topics
  | .producer => ofHeap T.producers
  | .conf     => ofHeap T.confs
  | .rk       => ofHeap T.rks
  | .rkt      => ofHeap T.rkts
  | .thread   => ofHeap T.threads
  | .scratch  => ⟨fun c => ∃ t, c ∈ d.scratch t, fun c => d.nextScratch ≤ c⟩

/-- The objects that are there. -/
def stock (T : Tab) (d : Flow) : Stock Obj := Stock.all (stockOf T d)

/-- A throwaway configuration has one owner, who has it once. -/
structure Flow.Owned (d : Flow) : Prop where
  known : ∀ t, ∀ c ∈ d.scratch t, c < d.nextScratch
  nodup : ∀ t, (d.scratch t).Nodup
  one : ∀ t u, ∀ c ∈ d.scratch t, c ∈ d.scratch u → t = u

/-- A throwaway configuration is handed out. -/
theorem moved_scratchNew (T : Tab) (d : Flow) (t : Nat) :
    Moved (some d.nextScratch) none (stockOf T d .scratch)
      (stockOf T { d with
        scratch := Function.update d.scratch t (d.nextScratch :: d.scratch t)
        nextScratch := d.nextScratch + 1 } .scratch) where
  gain c hc := by cases hc; exact le_refl d.nextScratch
  loss c hc := by cases hc
  live c := by
    simp only [stockOf, ne_eq, reduceCtorEq, not_false_eq_true, and_true, Option.some.injEq]
    constructor
    · rintro ⟨u, hu⟩
      by_cases e : u = t
      · subst e
        rw [Function.update_self] at hu
        rcases List.mem_cons.mp hu with rfl | hu
        · exact Or.inl rfl
        · exact Or.inr ⟨u, hu⟩
      · rw [Function.update_of_ne e] at hu
        exact Or.inr ⟨u, hu⟩
    · rintro (rfl | ⟨u, hu⟩)
      · exact ⟨t, by rw [Function.update_self]; exact List.mem_cons_self⟩
      · refine ⟨u, ?_⟩
        by_cases e : u = t
        · subst e
          rw [Function.update_self]
          exact List.mem_cons_of_mem _ hu
        · rw [Function.update_of_ne e]
          exact hu
  fresh c := by
    simp only [stockOf, ne_eq, Option.some.injEq]
    omega

/-- It is destroyed. -/
theorem moved_scratchDestroy (T : Tab) {d : Flow} (hd : d.Owned) {t c : Nat}
    (hc : c ∈ d.scratch t) :
    Moved none (some c) (stockOf T d .scratch)
      (stockOf T { d with
        scratch := Function.update d.scratch t ((d.scratch t).erase c) } .scratch) where
  gain x hx := by cases hx
  loss x hx := by cases hx; exact ⟨t, hc⟩
  live x := by
    simp only [stockOf, ne_eq, reduceCtorEq, false_or, Option.some.injEq]
    constructor
    · rintro ⟨u, hu⟩
      by_cases e : u = t
      · subst e
        rw [Function.update_self] at hu
        refine ⟨⟨u, List.mem_of_mem_erase hu⟩, ?_⟩
        rintro rfl
        exact (hd.nodup u).not_mem_erase hu
      · rw [Function.update_of_ne e] at hu
        refine ⟨⟨u, hu⟩, ?_⟩
        rintro rfl
        exact e (hd.one u t c hu hc)
    · rintro ⟨⟨u, hu⟩, hne⟩
      refine ⟨u, ?_⟩
      by_cases e : u = t
      · subst e
        rw [Function.update_self]
        exact (List.mem_erase_of_ne (Ne.symm hne)).mpr hu
      · rw [Function.update_of_ne e]
        exact hu
  fresh x := by simp [stockOf]

section op

variable {t : Nat} {h : Held} {o : Op} {a : Ans} {T T' : Tab} {d d' : Flow} {r : o.Res}

/-- **A call acquires and releases what its result says.** -/
theorem Op.moved (hd : d.Owned) (hv : o.Valid t h T d)
    (ha : o.act t a T d = some (r, T', d')) :
    Moved (o.gain r) (o.loss r) (stock T d) (stock T' d') := by
  refine Moved.all fun k => ?_
  cases o with
  | strdup s =>
      cases a <;> cases ha <;> cases k <;> first | exact .same _ | exact moved_alloc _ _
  | mallocTopic =>
      cases a <;> cases ha <;> cases k <;> first | exact .same _ | exact moved_alloc _ _
  | mallocTk =>
      cases a <;> cases ha <;> cases k <;> first | exact .same _ | exact moved_alloc _ _
  | rdKafkaConfNew =>
      cases a <;> cases ha <;> cases k <;> first | exact .same _ | exact moved_alloc _ _
  | rdKafkaTopicNew rk name =>
      cases a <;> cases ha <;> cases k <;> first | exact .same _ | exact moved_alloc _ _
  | pthreadCreate tk =>
      cases a <;> cases ha <;> cases k <;> first | exact .same _ | exact moved_alloc _ _
  | freeStr p => cases ha; cases k <;> first | exact .same _ | exact moved_free hv.2
  | freeArray p => cases ha; cases k <;> first | exact .same _ | exact moved_free hv.2
  | freeTk p => cases ha; cases k <;> first | exact .same _ | exact moved_free hv.2.1
  | rdKafkaConfDestroy p => cases ha; cases k <;> first | exact .same _ | exact moved_free hv.2
  | rdKafkaTopicDestroy p => cases ha; cases k <;> first | exact .same _ | exact moved_free hv.2
  | freeTopic p =>
      obtain ⟨-, ⟨v, hg, -⟩, -⟩ := hv
      cases ha
      cases k <;> first | exact .same _ | exact moved_free (Heap.live_of_get hg)
  | realloc old n =>
      cases a with
      | queueFull => cases ha
      | fail err text => cases ha; cases old <;> cases k <;> exact .same _
      | ok =>
          simp only [Op.act] at ha
          split at ha
          · cases ha
            cases old with
            | none => cases k <;> first | exact .same _ | exact moved_alloc _ _
            | some p =>
                have hfree := moved_free (hv.2 p rfl)
                cases k <;> first | exact .same _ | exact hfree.swap (moved_alloc _ _)
          · cases ha
  | rdKafkaNew c =>
      cases a with
      | queueFull => cases ha
      | fail err text =>
          obtain ⟨w, -, e⟩ := Option.map_eq_some_iff.mp ha
          cases e
          cases k <;> exact .same _
      | ok =>
          obtain ⟨w, -, e⟩ := Option.map_eq_some_iff.mp ha
          cases e
          cases k <;> first | exact .same _ | exact moved_alloc _ _ | exact moved_free hv.2
  | rdKafkaDestroy p =>
      simp only [Op.act] at ha
      split at ha
      · cases ha
        cases k <;> first | exact .same _ | exact moved_free hv.2.1
      · cases ha
  | pthreadJoin thr =>
      simp only [Op.act] at ha
      split at ha
      · cases ha
        cases k <;> first | exact .same _ | exact moved_free hv.2
      · cases ha
  | scratchNew =>
      cases a <;> cases ha <;> cases k <;> first | exact .same _ | exact moved_scratchNew T d t
  | scratchDestroy c =>
      cases ha
      cases k <;> first | exact .same _ | exact moved_scratchDestroy T hd hv
  | storeTopic p v => cases ha; cases k <;> first | exact .same _ | exact moved_set _ _ _
  | storeTk p v => cases ha; cases k <;> first | exact .same _ | exact moved_set _ _ _
  | rdKafkaConfSet p name value =>
      cases a with
      | queueFull => cases ha
      | fail err text => cases ha; cases k <;> exact .same _
      | ok =>
          obtain ⟨w, -, e⟩ := Option.map_eq_some_iff.mp ha
          cases e
          cases k <;> first | exact .same _ | exact moved_set _ _ _
  | rdKafkaConfSetDrMsgCb p =>
      obtain ⟨w, -, e⟩ := Option.map_eq_some_iff.mp ha
      cases e
      cases k <;> first | exact .same _ | exact moved_set _ _ _
  | loadTopic p =>
      obtain ⟨w, -, e⟩ := Option.map_eq_some_iff.mp ha
      cases e
      exact .same _
  | loadTk p =>
      obtain ⟨w, -, e⟩ := Option.map_eq_some_iff.mp ha
      cases e
      exact .same _
  | rdKafkaProduce rkt payload key tt =>
      cases a with
      | queueFull => cases ha; cases k <;> exact .same _
      | fail err text => cases ha; cases k <;> exact .same _
      | ok =>
          simp only [Op.act] at ha
          split at ha
          · cases ha
            cases k <;> exact .same _
          · cases ha
  | scratchSet c name value => cases a <;> cases ha <;> cases k <;> exact .same _
  | undefined => exact hv.elim
  | _ => cases ha; cases k <;> exact .same _

/-- A call of another kind leaves the throwaway configurations alone. -/
theorem Op.act_owned (ha : o.act t a T d = some (r, T', d')) :
    (d'.scratch = d.scratch ∧ d'.nextScratch = d.nextScratch) ∨
      d' = { d with
        scratch := Function.update d.scratch t (d.nextScratch :: d.scratch t)
        nextScratch := d.nextScratch + 1 } ∨
      ∃ c, d' = { d with scratch := Function.update d.scratch t ((d.scratch t).erase c) } := by
  cases o <;> cases a <;> simp only [Op.act] at ha <;> first
    | (cases ha; done)
    | (cases ha; exact Or.inl ⟨rfl, rfl⟩)
    | (cases ha; exact Or.inr (Or.inl rfl))
    | (cases ha; exact Or.inr (Or.inr ⟨_, rfl⟩))
    | (obtain ⟨_, _, e⟩ := Option.map_eq_some_iff.mp ha; cases e; exact Or.inl ⟨rfl, rfl⟩)
    | (split at ha <;> cases ha; exact Or.inl ⟨rfl, rfl⟩)

theorem Flow.Owned.same (hd : d.Owned) (hs : d'.scratch = d.scratch)
    (hn : d'.nextScratch = d.nextScratch) : d'.Owned := by
  refine ⟨?_, ?_, ?_⟩
  · rw [hs, hn]
    exact hd.known
  · rw [hs]
    exact hd.nodup
  · rw [hs]
    exact hd.one

theorem Flow.Owned.act (hd : d.Owned) (ha : o.act t a T d = some (r, T', d')) : d'.Owned := by
  rcases Op.act_owned ha with ⟨hs, hn⟩ | rfl | ⟨c, rfl⟩
  · exact hd.same hs hn
  · -- the new one is above all others
    have hmem : ∀ u, ∀ c ∈ Function.update d.scratch t (d.nextScratch :: d.scratch t) u,
        (u = t ∧ c = d.nextScratch) ∨ c ∈ d.scratch u := by
      intro u c hc
      by_cases e : u = t
      · subst e
        rw [Function.update_self] at hc
        exact (List.mem_cons.mp hc).imp (fun e => ⟨rfl, e⟩) id
      · rw [Function.update_of_ne e] at hc
        exact Or.inr hc
    refine ⟨fun u c hc => ?_, fun u => ?_, fun u v c hu hv => ?_⟩
    · rcases hmem u c hc with ⟨-, rfl⟩ | hc
      · exact Nat.lt_succ_self _
      · exact Nat.lt_succ_of_lt (hd.known u c hc)
    · by_cases e : u = t
      · subst e
        simp only [Function.update_self]
        exact List.nodup_cons.mpr ⟨fun hc => Nat.lt_irrefl _ (hd.known u _ hc), hd.nodup u⟩
      · simp only [Function.update_of_ne e]
        exact hd.nodup u
    · rcases hmem u c hu with ⟨hut, hc⟩ | hu' <;> rcases hmem v c hv with ⟨hvt, hc'⟩ | hv'
      · exact hut.trans hvt.symm
      · exact absurd (hd.known v c hv') (by rw [hc]; exact Nat.lt_irrefl _)
      · exact absurd (hd.known u c hu') (by rw [hc']; exact Nat.lt_irrefl _)
      · exact hd.one u v c hu' hv'
  · have hmem : ∀ u, ∀ x ∈ Function.update d.scratch t ((d.scratch t).erase c) u,
        x ∈ d.scratch u := by
      intro u x hx
      by_cases e : u = t
      · subst e
        rw [Function.update_self] at hx
        exact List.mem_of_mem_erase hx
      · rwa [Function.update_of_ne e] at hx
    refine ⟨fun u x hx => hd.known u x (hmem u x hx), fun u => ?_,
      fun u v x hu hv => hd.one u v x (hmem u x hu) (hmem v x hv)⟩
    by_cases e : u = t
    · subst e
      simp only [Function.update_self]
      exact (hd.nodup u).erase c
    · simp only [Function.update_of_ne e]
      exact hd.nodup u

/-- A handle keeps the instance it was created on. -/
theorem Op.act_rkts (ha : o.act t a T d = some (r, T', d')) {p : Nat} {v : RdKafkaTopic}
    (hp : T'.rkts.get p = some v) :
    T.rkts.get p = some v ∨ T.rkts.next ≤ p ∧
      (⟨o, r⟩ : Done) = ⟨.rdKafkaTopicNew v.rk v.name, some p⟩ := by
  cases o with
  | rdKafkaTopicDestroy q =>
      cases ha
      exact Or.inl (Heap.get_free hp)
  | rdKafkaTopicNew rk name =>
      cases a with
      | queueFull => cases ha
      | fail err text => cases ha; exact Or.inl hp
      | ok =>
          cases ha
          by_cases e : p = T.rkts.next
          · subst e
            rw [Heap.get_alloc_next] at hp
            cases hp
            exact Or.inr ⟨le_refl _, rfl⟩
          · exact Or.inl ((Heap.get_alloc_ne e).symm.trans hp)
  | _ =>
      cases a <;> simp only [Op.act] at ha <;> first
        | (cases ha; done)
        | (cases ha; exact Or.inl hp)
        | (obtain ⟨_, _, e⟩ := Option.map_eq_some_iff.mp ha; cases e; exact Or.inl hp)
        | (split at ha <;> cases ha; exact Or.inl hp)

end op

/-! ### What a log keeps -/

/-- What is asked of an event, after those before it. -/
structure Lawful (tr : List Done) (e : Done) : Prop where
  /-- What is acquired is new. -/
  gain : ∀ x, book.gain e = some x → book.acquired x tr = 0
  /-- What is released was acquired, and not released before. -/
  loss : ∀ x, book.loss e = some x → book.acquired x tr = 1 ∧ book.released x tr = 0
  /-- When an instance is created, every earlier one is gone. -/
  created : ∀ c rk, e = ⟨.rdKafkaNew c, .ok rk⟩ →
    ∀ rk', book.acquired (.rk, rk') tr = book.released (.rk, rk') tr
  /-- When an instance is destroyed, every handle created on it is destroyed, once, and every poll
  thread that was started is joined, once. -/
  destroyed : ∀ rk, e = ⟨.rdKafkaDestroy rk, ()⟩ →
    (∀ name p, ⟨.rdKafkaTopicNew rk name, some p⟩ ∈ tr → book.released (.rkt, p) tr = 1) ∧
    ∀ tk thr, ⟨.pthreadCreate tk, some thr⟩ ∈ tr → book.released (.thread, thr) tr = 1

/-- **What a run keeps** of its log and its state. -/
structure Kept (tr : List Done) (T : Tab) (d : Flow) : Prop where
  owned : d.Owned
  balanced : book.Balanced tr (stock T d)
  /-- A handle is one of the instance it was created on. -/
  handles : ∀ rk name p v, ⟨.rdKafkaTopicNew rk name, some p⟩ ∈ tr → T.rkts.get p = some v →
    v.rk = rk
  lawful : Each Lawful tr

theorem kept_init : Kept [] Tab.init Flow.init where
  owned := ⟨fun t c hc => (by cases hc), fun t => List.nodup_nil, fun t u c hc => (by cases hc)⟩
  balanced := by
    refine Book.Balanced.nil ?_ ?_
    · rintro ⟨k, p⟩
      cases k <;> exact Nat.zero_le p
    · rintro ⟨k, p⟩ h
      cases k <;> first | (obtain ⟨t, ht⟩ := h; cases ht) | cases h
  handles rk name p v h := by cases h
  lawful := Each.nil

section kept

variable {tr : List Done} {t : Nat} {h : Held} {o : Op} {a : Ans} {T T' : Tab} {d d' : Flow}
  {r : o.Res}

/-- A step of the environment is none of the ledger's business. -/
theorem Kept.env {e : Ev} (hk : Kept tr T d) (he : e.act T d = some d') : Kept tr T d' := by
  have hs : d'.scratch = d.scratch := Ev.act_scratch he
  have hn : d'.nextScratch = d.nextScratch := by
    rcases Ev.act_cases he with ⟨_, _, _, _, _, _, hd⟩ | ⟨_, _, _, _, _, _, _, hd⟩ |
      ⟨_, _, _, hd⟩ | ⟨_, _, _, hd⟩ <;> exact (congrArg Flow.nextScratch hd).trans rfl
  have hstock : stock T d' = stock T d := by
    refine congrArg Stock.all (funext fun k => ?_)
    cases k <;> first | rfl | (simp only [stockOf, hs, hn])
  exact ⟨hk.owned.same hs hn, hstock ▸ hk.balanced, hk.handles, hk.lawful⟩

/-- A handle that the log created is gone when no handle of its instance is left. -/
theorem Kept.handle_released (hk : Kept tr T d) {rk p : Nat} {name : CStr}
    (hno : ∀ q v, T.rkts.get q = some v → v.rk ≠ rk)
    (hm : ⟨.rdKafkaTopicNew rk name, some p⟩ ∈ tr) : book.released (.rkt, p) tr = 1 := by
  refine hk.balanced.released_of_pos (Book.acquired_pos hm rfl) fun hl => ?_
  obtain ⟨v, hv⟩ := Option.isSome_iff_exists.mp hl
  exact hno p v hv (hk.handles rk name p v hm hv)

/-- A poll thread that the log started is joined when none of a live instance is left. -/
theorem Kept.thread_released (hk : Kept tr T d) (hi : Inv T d) {rk tk thr : Nat}
    (hrk : T.rks.Live rk)
    (hno : ∀ u q v, T.threads.get u = some q → T.producers.get q = some v → v.rk ≠ some rk)
    (hm : ⟨.pthreadCreate tk, some thr⟩ ∈ tr) : book.released (.thread, thr) tr = 1 := by
  refine hk.balanced.released_of_pos (Book.acquired_pos hm rfl) fun hl => ?_
  exact hi.no_thread hrk hno thr hl

/-- **A call is lawful.** -/
theorem Kept.lawful_op (hk : Kept tr T d) (hi : Inv T d) (hi' : Inv T' d')
    (hv : o.Valid t h T d) (ha : o.act t a T d = some (r, T', d')) : Lawful tr ⟨o, r⟩ where
  gain x hx := (hk.balanced.fresh x ((Op.moved hk.owned hv ha).gain x hx)).1
  loss x hx := hk.balanced.live x ((Op.moved hk.owned hv ha).loss x hx)
  created c rk e rk' := by
    -- the new instance is the only one
    have hmoved := Op.moved hk.owned hv ha
    have hgain : o.gain r = some (.rk, rk) := congrArg book.gain e
    have hloss : o.loss r = some (.conf, c) := congrArg book.loss e
    refine hk.balanced.settled fun hl => ?_
    have hnew : T'.rks.Live rk := (hmoved.live (.rk, rk)).mpr (Or.inl hgain)
    have hold : T'.rks.Live rk' := (hmoved.live (.rk, rk')).mpr (Or.inr ⟨hl, by rw [hloss]; simp⟩)
    obtain rfl := hi'.one rk' rk hold hnew
    exact hk.balanced.apart (hmoved.gain _ hgain) hl
  destroyed rk e := by
    cases e
    obtain ⟨-, hrk, hhandles, hthreads⟩ := hv
    exact ⟨fun name p hm => hk.handle_released hhandles hm,
      fun tk thr hm => hk.thread_released hi hrk hthreads hm⟩

/-- **A call keeps the ledger.** -/
theorem Kept.op (hk : Kept tr T d) (hi : Inv T d) (hi' : Inv T' d') (hv : o.Valid t h T d)
    (ha : o.act t a T d = some (r, T', d')) : Kept (tr ++ [⟨o, r⟩]) T' d' where
  owned := hk.owned.act ha
  balanced := hk.balanced.step (Op.moved hk.owned hv ha)
  handles rk name p v hm hp := by
    have hold : ⟨.rdKafkaTopicNew rk name, some p⟩ ∈ tr → ¬ T.rkts.next ≤ p := by
      intro hm hle
      have hpos := Book.acquired_pos (B := book) hm rfl
      rw [(hk.balanced.fresh (.rkt, p) hle).1] at hpos
      cases hpos
    rcases Op.act_rkts ha hp with hget | ⟨hle, he⟩ <;> rcases List.mem_append.mp hm with hm | hm
    · exact hk.handles rk name p v hm hget
    · have he := List.mem_singleton.mp hm
      have hgain : o.gain r = some (.rkt, p) := (congrArg book.gain he).symm
      exact absurd (Heap.lt_next hget)
        (Nat.not_lt.mpr ((Op.moved hk.owned hv ha).gain (.rkt, p) hgain))
    · exact absurd hle (hold hm)
    · have he' := (List.mem_singleton.mp hm).trans he
      cases he'
      rfl
  lawful := hk.lawful.snoc (hk.lawful_op hi hi' hv ha)

/-- A step keeps the ledger: it does nothing, or it is a call, or a step of the environment. -/
theorem Kept.step {x : Option Done} (hk : Kept tr T d) (hi : Inv T d) (hi' : Inv T' d')
    (hx : (x = none ∧ T' = T ∧ d' = d) ∨
      (∃ t h o a r, o.Valid t h T d ∧ o.act t a T d = some (r, T', d') ∧ x = some ⟨o, r⟩) ∨
      (x = none ∧ T' = T ∧ ∃ e : Ev, e.act T d = some d')) :
    Kept (tr ++ x.toList) T' d' := by
  rcases hx with ⟨rfl, rfl, rfl⟩ | ⟨t, h, o, a, r, hv, ha, rfl⟩ | ⟨rfl, rfl, e, he⟩
  · rw [Option.toList_none, List.append_nil]
    exact hk
  · exact hk.op hi hi' hv ha
  · rw [Option.toList_none, List.append_nil]
    exact hk.env he

end kept

end TrigEmit
