import TrigEmitKafka.Results.Progress

/-!
# Results — the poll thread and the connection

* `polls_iff_connected`: there is never more than one poll thread; whenever nobody writes, there is
  one exactly while the module is connected, on the current producer, and it is at work; and while
  the module is not connected nothing is in flight, and every message that was accepted has been
  reported once.
-/

namespace TrigEmit

open Conc (Cfg)
open Store (Heap)

/-- The producer runs, on the only instance, and the only poll thread serves it. -/
structure Attended (s : Machine) (tk thr rk : Nat) : Prop where
  thread : ∀ u, s.sh.threads.Live u ↔ u = thr
  polls : s.sh.threads.get thr = some tk
  atWork : s.fr.phase thr ≠ .exited
  instance_ : ∀ q, s.sh.rks.Live q ↔ q = rk
  producer : ∃ v, s.sh.producers.get tk = some v ∧ v.running = true ∧ v.threadStarted = true ∧
    v.thread = thr ∧ v.rk = some rk

/-- There is no instance and no poll thread, and every message accepted was reported. -/
structure Deserted (s : Machine) : Prop where
  thread : ∀ thr, ¬ s.sh.threads.Live thr
  exited : ∀ thr, s.fr.phase thr = .exited
  instance_ : ∀ rk, ¬ s.sh.rks.Live rk
  inflight : s.fr.inflight = []
  reported : s.fr.accepted.Perm (s.fr.served.map (·.msg))

/-- Nothing of the module runs, or can begin to, and every message accepted was reported. -/
structure Silent (T : Tab) (d : Flow) : Prop where
  thread : ∀ thr, ¬ T.threads.Live thr
  instance_ : ∀ rk, ¬ T.rks.Live rk
  inflight : d.inflight = []
  still : ∀ e : Ev, e.act T d = none
  reported : d.accepted.Perm (d.served.map (·.msg))

/-- A world without a connection is silent. -/
theorem silent_of_world {T : Tab} {d : Flow} (hi : Inv T d) {W : World} (hT : T.Is W.cells)
    (hc : W.conn = none) (hh : Backed T d) : Silent T d := by
  have hthreads : T.threads.Holds 0 := by
    have := hT.threads
    rwa [show W.cells.threads = 0 by simp [World.cells, hc]] at this
  have hrks : T.rks.Holds 0 := by
    have := hT.rks
    rwa [show W.cells.rks = 0 by simp [World.cells, hc]] at this
  have hnil : d.inflight = [] := by
    by_contra hne
    obtain ⟨rk, hrk⟩ := hh hne
    exact hrks.not_live rk hrk
  refine ⟨hthreads.not_live, hrks.not_live, hnil, fun e => ?_, ?_⟩
  · rw [← Option.not_isSome_iff_eq_none]
    intro hsome
    obtain ⟨d', he⟩ := Option.isSome_iff_exists.mp hsome
    rcases Ev.act_cases he with ⟨m, u, err, rest, hp, -⟩ | ⟨m, u, err, now, rest, hp, -⟩ |
      ⟨m, u, hp, -⟩ | ⟨thr, ph, hph, -⟩
    · rw [hnil] at hp
      exact absurd hp.nil_eq (by simp)
    · rw [hnil] at hp
      exact absurd hp.nil_eq (by simp)
    · rw [hnil] at hp
      exact absurd hp.nil_eq (by simp)
    · exact hthreads.not_live thr (hi.alive thr hph)
  · have hcons := hi.conserved
    rwa [hnil, uncounted, List.filter_nil, List.map_nil, List.append_nil] at hcons

section

variable {s : Machine}

theorem Machine.Reachable.deserted (h : s.Reachable) {W : World} (hW : s.sh.Is W.cells)
    (hc : W.conn = none) : Deserted s := by
  have hsilent := silent_of_world h.inv hW hc h.attentive.held
  refine ⟨hsilent.thread, fun thr => ?_, hsilent.instance_, hsilent.inflight, hsilent.reported⟩
  by_contra hne
  exact hsilent.thread thr (h.inv.alive thr hne)

theorem Machine.Reachable.attended (h : s.Reachable) {W : World} (hW : s.sh.Is W.cells) {c : Conn}
    (hc : W.conn = some c) : Attended s c.tk c.thr c.rk := by
  have hthreads : s.sh.threads.Holds {(c.thr, c.tk)} := by
    have := hW.threads
    rwa [show W.cells.threads = {(c.thr, c.tk)} by simp [World.cells, hc]] at this
  have hrks : s.sh.rks.Holds {(c.rk, ⟨c.conf⟩)} := by
    have := hW.rks
    rwa [show W.cells.rks = {(c.rk, ⟨c.conf⟩)} by simp [World.cells, hc]] at this
  have hpolls : s.sh.threads.get c.thr = some c.tk := hthreads.get (Multiset.mem_singleton_self _)
  have hproducer := hW.producers.get (World.producer_mem hc)
  refine ⟨fun u => ?_, hpolls, h.attentive.running _ _ _ hpolls hproducer rfl, fun q => ?_, ?_⟩
  · rw [hthreads.live_iff]
    simp
  · rw [hrks.live_iff]
    simp
  · exact ⟨_, hproducer, rfl, rfl, rfl, rfl⟩

/-- **The poll thread and the connection.** -/
theorem polls_iff_connected (h : s.Reachable) :
    (∀ thr thr', s.sh.threads.Live thr → s.sh.threads.Live thr' → thr = thr') ∧
      (s.lock.NoWriter →
        (∀ tk, s.sh.kt.producer = some tk → ∃ thr rk, Attended s tk thr rk) ∧
        (s.sh.kt.producer = none → Deserted s)) := by
  refine ⟨h.attentive.one, fun hn => ?_⟩
  obtain ⟨W, -, hW⟩ := h.world hn
  have hkt : s.sh.kt.producer = W.conn.map (·.tk) := by
    rw [hW.kt]
    rfl
  constructor
  · intro tk hk
    obtain ⟨c, hc, rfl⟩ := Option.map_eq_some_iff.mp (hkt.symm.trans hk)
    exact ⟨c.thr, c.rk, h.attended hW hc⟩
  · intro hk
    exact h.deserted hW (Option.map_eq_none_iff.mp (hkt.symm.trans hk))

end

/-- A session has connected, and the poll thread waits in `rd_kafka_poll`. -/
theorem connected_attended : ∃ s : Machine, s.fr.phase 0 = .polling ∧
    ∃ thr rk, Attended s 0 thr rk := by
  have hrun : (Cfg.run iface tableProg (calling 0 (.connect (some (.lit "b"))) 20 ++
      [.env (.pollCheck 0)]) Machine.initial).map (fun s =>
        (decide s.lock.NoWriter, s.sh.kt.producer, s.fr.phase 0)) = some (true, some 0, .polling) := by
    decide +kernel
  obtain ⟨s, hs, he⟩ := Option.map_eq_some_iff.mp hrun
  simp only [Prod.mk.injEq, decide_eq_true_eq] at he
  obtain ⟨-, hworld⟩ := polls_iff_connected (Cfg.reach_of_run hs)
  exact ⟨s, he.2.2, (hworld he.1).1 0 he.2.1⟩

end TrigEmit
