import TrigEmitKafka.Results.Registry

/-!
# Results — what `kafka_stats` shows over a long run

`kafka_stats` prints the two numbers one `kafka_topic_get_stats` gave it: the counters of the record
that is registered for the topic, each of 32 bits.  A topic keeps its record until a disconnect of
it, or of everything.

* `stats_forward_iff`: two `kafka_stats` of one topic, with no disconnect of it in between, show
  the reports counted for its record, the later no less than the earlier, exactly when fewer than
  2^32 successes and fewer than 2^32 failures were counted as the later one read them.
* `stats_backward`: a run in which the later one shows 0 after the earlier one showed 2^32 - 1.
-/

namespace TrigEmit

open Conc (exec)
open Conc.Logic (Allowed allowed_any)
open Slots (toMap toMap_eq_some)

/-! ### The record of a topic -/

/-- How many of the reports `s` are of that record, and of the kind `count` counts: none while
there is no such topic. -/
def Tab.reports (T : Tab) (count : Nat → List Served → Nat) (n : CStr) (s : List Served) : Nat :=
  (T.record n).elim 0 fun p => count p s

variable {T T' : Tab} {d d' : Flow} {W W' : World} {n : CStr}

theorem Tab.Is.record_iff (h : T.Is W.cells) (hW : W.Ok) {p : Nat} :
    T.record n = some p ↔ ∃ r ∈ W.regs, r.name.val = n ∧ r.tt = p := by
  have hnodup : ((W.regs.map fun r => (r.name.val, r.tt)).map Prod.fst).Nodup := by
    rw [List.map_map]
    exact hW.names_nodup
  rw [h.record, toMap_eq_some hnodup, List.mem_map]
  constructor
  · rintro ⟨r, hr, e⟩
    obtain ⟨hn, hp⟩ := Prod.mk.inj e
    exact ⟨r, hr, hn, hp⟩
  · rintro ⟨r, hr, rfl, rfl⟩
    exact ⟨r, hr, rfl⟩

/-! ### Until it is disconnected -/

/-- The call may remove the topic `n`. -/
def TableCall.Disconnects (n : CStr) : TableCall → Prop
  | .dismiss topic => topic = some n
  | .dismissAll    => True
  | _              => False

/-- Any other call leaves the topic registered, if it is. -/
theorem Effect.keeps_topic {F : Prop} {b b' : View} {c : TableCall} {r : c.Ret}
    (he : Effect F c W b r W' b') (hW : W.Ok) (hc : ¬ c.Disconnects n) {reg : Reg}
    (hreg : reg ∈ W.regs) (hn : reg.name.val = n) : reg ∈ W'.regs := by
  have hobs : W'.obs.topics = W.obs.topics → reg ∈ W'.regs := by
    intro e
    show reg ∈ W'.obs.topics
    rw [e]
    exact hreg
  cases c with
  | setParam name value =>
      by_cases hr : r = .ok ()
      · obtain ⟨m, v, -, -, -, hset⟩ := he.2.1 hr
        exact hobs (by rw [(hset.ok hr).2])
      · exact hobs (by rw [(he.2.2 hr).1.obs])
  | connect brokers =>
      by_cases hr : r = .ok ()
      · obtain ⟨bs, -, -, hconn⟩ := he.2.1 hr
        obtain ⟨-, -, p, -, -, ho⟩ := hconn.ok hr
        exact hobs (by rw [ho])
      · exact hobs (by rw [(he.2.2.1 hr).1.obs])
  | create topic =>
      by_cases hr : r = 0
      · obtain ⟨m, -, ⟨-, ho⟩ | ⟨-, -, -, new, -, -, ho⟩⟩ := he.2.1.ok hr
        · exact hobs (by rw [ho])
        · show reg ∈ W'.obs.topics
          rw [ho]
          exact List.mem_append_left _ hreg
      · exact hobs (by rw [(he.2.1.fail hr).2.1.obs])
  | dismiss topic =>
      obtain ⟨-, ⟨m, rfl, -, hd⟩ | ⟨-, -, rfl⟩⟩ := he
      · by_cases hr : r = 0
        · obtain ⟨i, old, hf, ho⟩ := hd.ok hr
          show reg ∈ W'.obs.topics
          rw [ho]
          refine (hW.mem_swapRemove hf reg).mpr ⟨hreg, fun e => hc ?_⟩
          exact congrArg some (e.symm.trans hn)
        · exact hobs (by rw [(hd.fail hr).2.1.obs])
      · exact hreg
  | unsetParam name =>
      obtain ⟨-, ⟨m, -, -, hu⟩ | ⟨-, -, rfl⟩⟩ := he
      · by_cases hr : r = 0
        · obtain ⟨-, i, x, -, ho⟩ := hu.ok hr
          exact hobs (by rw [ho])
        · exact hobs (by rw [(hu.fail hr).2.1.obs])
      · exact hreg
  | dismissAll => exact absurd trivial hc
  | send topic data => rw [he.1]; exact hreg
  | connected => rw [he.1]; exact hreg
  | validateParam name value => rw [he.1]; exact hreg
  | getBrokers buflen => rw [he.1]; exact hreg
  | describeParams buflen => rw [he.1]; exact hreg
  | «exists» topic => rw [he.1]; exact hreg
  | getStats topic => rw [he.1]; exact hreg

variable {allows : Ans → Prop} {hs : List Finished}

/-- **A topic keeps its record** in a run that does not disconnect it. -/
theorem Runs.keeps_record (h : Runs allows T d hs T' d') (hi : Inv T d) (hT : TableInv T)
    (hno : ∀ f ∈ hs, ¬ f.c.Disconnects n) {p : Nat} (hp : T.record n = some p) :
    T'.record n = some p := by
  induction h with
  | nil => exact hp
  | env e _ _ ih => exact ih hno
  | call course hrun hok he ih =>
      have hp₁ := ih fun f hf => hno f (List.mem_append_left _ hf)
      obtain ⟨hi₁, W, hW, hT₁⟩ := hrun.world hi hT
      obtain ⟨-, W', b', hT₂, hW', -, -, heff⟩ := exec_effect hi₁ hT₁ hW hok he
      have hc := hno _ (List.mem_append_right _ (List.mem_singleton_self _))
      obtain ⟨reg, hreg, hn, htt⟩ := (hT₁.record_iff hW).mp hp₁
      exact (hT₂.record_iff hW').mpr ⟨reg, heff.keeps_topic hW hc hreg hn, hn, htt⟩

/-- No report is taken back in a run. -/
theorem Runs.served (h : Runs allows T d hs T' d') (hi : Inv T d) (hT : TableInv T) :
    d.served <+: d'.served := by
  induction h with
  | nil => exact List.prefix_refl _
  | env e _ he ih => exact ih.trans (Ev.act_messages he).1
  | call course hrun hok he ih =>
      obtain ⟨hi₁, W, hW, hT₁⟩ := hrun.world hi hT
      obtain ⟨-, W', b', -, -, hb, -, heff⟩ := exec_effect hi₁ hT₁ hW hok he
      exact ih.trans (heff.lo.trans hb.lo)

/-! ### Two statistics -/

/-- **What one `kafka_stats` shows**: the reports counted at two moments of it. -/
theorem getStats_shows (hi : Inv T d) (hT : TableInv T) {t : Nat} {course : Course}
    {x : UInt32 × UInt32}
    (he : exec iface t (tableProg (.getStats (some n))) course T d = some (x, T', d')) :
    T'.record n = T.record n ∧ ∃ s s', d.served <+: s ∧ s <+: s' ∧ s' <+: d'.served ∧
      x = (UInt32.ofNat (T.reports successes n s), UInt32.ofNat (T.reports failures n s')) := by
  obtain ⟨W, hW, hT⟩ := hT
  obtain ⟨-, W', b', hT', -, hb, -, rfl, -, -, hlo, hread⟩ :=
    exec_effect hi hT hW (allowed_any course) he
  refine ⟨by rw [hT'.record, hT.record], ?_⟩
  have hf := hT.record_findTopic n
  cases hx : W'.findTopic n with
  | none =>
      have hbind : (some n).bind W'.findTopic = none := hx
      rw [hbind] at hread
      rw [hx] at hf
      refine ⟨d.served, b'.lo, List.prefix_refl _, hlo, hb.lo, ?_⟩
      rw [hread, Tab.reports, Tab.reports, hf]
      rfl
  | some y =>
      have hbind : (some n).bind W'.findTopic = some y := hx
      rw [hbind] at hread
      rw [hx] at hf
      obtain ⟨s, h₁, h₂, hr⟩ := hread
      refine ⟨s, b'.lo, h₁, h₂, hb.lo, ?_⟩
      rw [hr, Tab.reports, Tab.reports, hf]
      rfl

/-- The two numbers are the reports counted: the successes among `s`, the failures among `s'`. -/
def Tab.Shows (T : Tab) (n : CStr) (s s' : List Served) (x : UInt32 × UInt32) : Prop :=
  x.1.toNat = T.reports successes n s ∧ x.2.toNat = T.reports failures n s'

/-- A counter shows its count until that does not fit. -/
theorem toNat_ofNat_iff (k : Nat) : (UInt32.ofNat k).toNat = k ↔ k < 2 ^ 32 := by
  rw [UInt32.toNat_ofNat']
  exact Nat.mod_eq_iff_lt (by decide)

theorem Tab.reports_mono {count : Nat → List Served → Nat}
    (hmono : ∀ p s s', s <+: s' → count p s ≤ count p s')
    (hrecord : ∀ p, T.record n = some p → T'.record n = some p) {s s' : List Served}
    (hs : s <+: s') : T.reports count n s ≤ T'.reports count n s' := by
  cases hp : T.record n with
  | none =>
      rw [Tab.reports, hp]
      exact Nat.zero_le _
  | some p =>
      rw [Tab.reports, Tab.reports, hp, hrecord p hp]
      exact hmono p s s' hs

/-- **Statistics go forward until a counter wraps.**  Two `kafka_stats` of the topic `n`, one after
the other, with no disconnect of it in between: there are moments of the two calls, at which their
counters are read, such that all four numbers are the reports counted by then, and neither of the
later two is less than the earlier one, exactly when fewer than 2^32 successes and fewer than 2^32
failures are counted when the later call reads them. -/
theorem stats_forward_iff {before between : List Finished} {T T₁ T₂ T₃ : Tab}
    {d d₁ d₂ d₃ : Flow} {t₁ t₂ : Nat} {course₁ course₂ : Course} {x₁ x₂ : UInt32 × UInt32}
    (h : FromLoad (fun _ => True) before T d)
    (h₁ : exec iface t₁ (tableProg (.getStats (some n))) course₁ T d = some (x₁, T₁, d₁))
    (hbetween : Runs (fun _ => True) T₁ d₁ between T₂ d₂)
    (hno : ∀ f ∈ between, ¬ f.c.Disconnects n)
    (h₂ : exec iface t₂ (tableProg (.getStats (some n))) course₂ T₂ d₂ = some (x₂, T₃, d₃)) :
    ∃ s₁ s₂ s₃ s₄, (d.served <+: s₁ ∧ s₁ <+: s₂ ∧ s₂ <+: d₁.served) ∧
      (d₂.served <+: s₃ ∧ s₃ <+: s₄ ∧ s₄ <+: d₃.served) ∧
      ((T.Shows n s₁ s₂ x₁ ∧ T₂.Shows n s₃ s₄ x₂ ∧ x₁.1 ≤ x₂.1 ∧ x₁.2 ≤ x₂.2) ↔
        T₂.reports successes n s₃ < 2 ^ 32 ∧ T₂.reports failures n s₄ < 2 ^ 32) := by
  obtain ⟨hi, hT⟩ := FromLoad.world h
  have hrun₁ := h.call course₁ (allowed_any course₁) h₁
  obtain ⟨hi₁, hT₁⟩ := FromLoad.world hrun₁
  obtain ⟨hi₂, hT₂⟩ := hbetween.world hi₁ hT₁
  obtain ⟨hsame, s₁, s₂, hs₁, hs₁₂, hs₂, rfl⟩ := getStats_shows hi hT h₁
  obtain ⟨-, s₃, s₄, hs₃, hs₃₄, hs₄, rfl⟩ := getStats_shows hi₂ hT₂ h₂
  refine ⟨s₁, s₂, s₃, s₄, ⟨hs₁, hs₁₂, hs₂⟩, ⟨hs₃, hs₃₄, hs₄⟩, ?_⟩
  have hrecord : ∀ p, T.record n = some p → T₂.record n = some p := by
    intro p hp
    exact hbetween.keeps_record hi₁ hT₁ hno (hsame.trans hp)
  have hserved := hbetween.served hi₁ hT₁
  have hsucc : T.reports successes n s₁ ≤ T₂.reports successes n s₃ :=
    Tab.reports_mono (fun p _ _ => successes_mono (p := p)) hrecord (((hs₁₂.trans hs₂).trans hserved).trans hs₃)
  have hfail : T.reports failures n s₂ ≤ T₂.reports failures n s₄ :=
    Tab.reports_mono (fun p _ _ => failures_mono (p := p)) hrecord ((hs₂.trans hserved).trans (hs₃.trans hs₃₄))
  simp only [Tab.Shows, UInt32.le_iff_toNat_le, toNat_ofNat_iff]
  constructor
  · rintro ⟨-, hlater, -⟩
    exact hlater
  · rintro ⟨hs, hf⟩
    have he₁ := (toNat_ofNat_iff _).mpr (hsucc.trans_lt hs)
    have he₂ := (toNat_ofNat_iff _).mpr (hfail.trans_lt hf)
    rw [he₁, he₂, (toNat_ofNat_iff _).mpr hs, (toNat_ofNat_iff _).mpr hf]
    exact ⟨⟨hsucc.trans_lt hs, hfail.trans_lt hf⟩, ⟨hs, hf⟩, hsucc, hfail⟩

/-! ### Many deliveries -/

/-- A connected module with the topic `t`. -/
def oneTopicTable : Tab × Flow :=
  ((replay [(0, .connect (some (.lit "b")), quietly 20),
    (0, .create (some (.lit "t")), quietly 15)] Tab.init Flow.init).map Prod.snd).getD
      (Tab.init, Flow.init)

/-- A send to it, of an empty message, that is delivered at once. -/
theorem oneTopicTable_delivers {d : Flow} (hd : d.inflight = []) : ∃ r d',
    Runs (fun _ => True) oneTopicTable.1 d [⟨1, .send (some (.lit "t")) [], r⟩]
      oneTopicTable.1 d' ∧
    d'.inflight = [] ∧ ∃ m : Message, m.tt = 0 ∧ d'.served = d.served ++ [⟨m, noError, 0⟩] := by
  obtain ⟨inflight, accepted, served, report, log, serving, phase, scratch, next⟩ := d
  obtain rfl : inflight = [] := hd
  have hsend : Runs (fun _ => True) oneTopicTable.1
      ⟨[], accepted, served, report, log, serving, phase, scratch, next⟩
      ([] ++ [⟨1, .send (some (.lit "t")) [], 0⟩]) oneTopicTable.1 _ :=
    .call (quietly 11) .nil (allowed_any _) rfl
  exact ⟨_, _, ((hsend.env (.cbEnter 0 (.poll 0) noError) rfl).env (.cbCount 0 0) rfl).env
    (.cbReturn 0) rfl, rfl, _, rfl, rfl⟩

/-- Any number of them. -/
theorem oneTopicTable_delivers_all (k : Nat) : ∃ hs d,
    Runs (fun _ => True) oneTopicTable.1 oneTopicTable.2 hs oneTopicTable.1 d ∧
      d.inflight = [] ∧ successes 0 d.served = k ∧ failures 0 d.served = 0 := by
  induction k with
  | zero => exact ⟨[], _, .nil, rfl, rfl, rfl⟩
  | succ k ih =>
      obtain ⟨hs, d, hrun, hflight, hk, hf⟩ := ih
      obtain ⟨r, d', hone, hflight', m, hm, hserved⟩ := oneTopicTable_delivers hflight
      refine ⟨_, d', hrun.trans hone, hflight', ?_, ?_⟩
      · rw [hserved, successes_append, hk]
        simp [successes, hm]
      · rw [hserved, failures_append, hf]
        simp [failures, hm]

/-- What `kafka_stats` shows of it, with nothing in flight. -/
theorem oneTopicTable_shows {hs : List Finished} {d : Flow}
    (h : FromLoad (fun _ => True) hs oneTopicTable.1 d) : ∃ d',
    exec iface 2 (tableProg (.getStats (some (.lit "t")))) (quietly 12) oneTopicTable.1 d =
      some ((UInt32.ofNat (successes 0 d.served), UInt32.ofNat (failures 0 d.served)),
        oneTopicTable.1, d') ∧ d'.served = d.served ∧ d'.inflight = d.inflight := by
  have hexec : exec iface 2 (tableProg (.getStats (some (.lit "t")))) (quietly 12)
      oneTopicTable.1 d = some (((d.report 0).transferred, (d.report 0).failed), oneTopicTable.1,
        { d with serving := (2 :: d.serving).erase 2 }) := rfl
  have hlive : oneTopicTable.1.topics.Live 0 := rfl
  obtain ⟨ht, hf⟩ := (FromLoad.world h).1.counted 0 hlive
  rw [ht, hf] at hexec
  exact ⟨_, hexec, rfl, rfl⟩

/-- The module with its topic is a run from load. -/
theorem oneTopicTable_loaded :
    ∃ hs, FromLoad (fun _ => True) hs oneTopicTable.1 oneTopicTable.2 := by
  have hreplay : (replay [(0, .connect (some (.lit "b")), quietly 20),
      (0, .create (some (.lit "t")), quietly 15)] Tab.init Flow.init).isSome := by
    decide +kernel
  obtain ⟨⟨hs, T, d⟩, hx⟩ := Option.isSome_iff_exists.mp hreplay
  have hrun : FromLoad (fun _ => True) hs T d := runs_of_replay (fun _ _ => allowed_any _) hx
  have hT : oneTopicTable = (T, d) := by
    rw [oneTopicTable, hx]
    rfl
  exact ⟨hs, by rw [hT]; exact hrun⟩

/-- `kafka_stats` after `k` deliveries, and after one more. -/
theorem oneTopicTable_stats (k : Nat) : ∃ before d d₁ between d₂ d₃,
    FromLoad (fun _ => True) before oneTopicTable.1 d ∧
    exec iface 2 (tableProg (.getStats (some (.lit "t")))) (quietly 12) oneTopicTable.1 d =
      some ((UInt32.ofNat k, 0), oneTopicTable.1, d₁) ∧
    Runs (fun _ => True) oneTopicTable.1 d₁ between oneTopicTable.1 d₂ ∧
    (∀ f ∈ between, ¬ f.c.Disconnects (.lit "t")) ∧
    exec iface 2 (tableProg (.getStats (some (.lit "t")))) (quietly 12) oneTopicTable.1 d₂ =
      some ((UInt32.ofNat (k + 1), 0), oneTopicTable.1, d₃) ∧
    successes 0 d₃.served = k + 1 ∧ failures 0 d₃.served = 0 := by
  obtain ⟨loading, hload⟩ := oneTopicTable_loaded
  obtain ⟨sends, d, hrun, hflight, hk, hf⟩ := oneTopicTable_delivers_all k
  have hbefore := hload.trans hrun
  obtain ⟨d₁, hfirst, hserved, hflight₁⟩ := oneTopicTable_shows hbefore
  obtain ⟨r, d₂, hone, -, m, hm, hserved₂⟩ := oneTopicTable_delivers (hflight₁.trans hflight)
  have hlater := (hbefore.call (quietly 12) (allowed_any _) hfirst).trans hone
  obtain ⟨d₃, hsecond, hserved₃, -⟩ := oneTopicTable_shows hlater
  have hsucc : successes 0 d₂.served = k + 1 := by
    rw [hserved₂, hserved, successes_append, hk]
    simp [successes, hm]
  have hfail : failures 0 d₂.served = 0 := by
    rw [hserved₂, hserved, failures_append, hf]
    simp [failures, hm]
  rw [hk, hf] at hfirst
  rw [hsucc, hfail] at hsecond
  refine ⟨_, d, d₁, _, d₂, d₃, hbefore, hfirst, hone, ?_, hsecond, ?_, ?_⟩
  · intro f hf
    rw [List.mem_singleton.mp hf]
    exact id
  · rw [hserved₃, hsucc]
  · rw [hserved₃, hfail]

/-- After 2^32 - 1 deliveries, one more takes the number shown back to 0. -/
theorem stats_backward : ∃ before T d T₁ d₁ between T₂ d₂ T₃ d₃ c₁ c₂ x₁ x₂,
    FromLoad (fun _ => True) before T d ∧
    exec iface 2 (tableProg (.getStats (some (.lit "t")))) c₁ T d = some (x₁, T₁, d₁) ∧
    Runs (fun _ => True) T₁ d₁ between T₂ d₂ ∧
    (∀ f ∈ between, ¬ f.c.Disconnects (.lit "t")) ∧
    exec iface 2 (tableProg (.getStats (some (.lit "t")))) c₂ T₂ d₂ = some (x₂, T₃, d₃) ∧
    x₁.1.toNat = 2 ^ 32 - 1 ∧ x₂.1.toNat = 0 := by
  obtain ⟨before, d, d₁, between, d₂, d₃, h, h₁, hbetween, hno, h₂, -⟩ :=
    oneTopicTable_stats (2 ^ 32 - 1)
  exact ⟨before, _, d, _, d₁, between, _, d₂, _, d₃, _, _, _, _, h, h₁, hbetween, hno, h₂,
    by decide, by decide⟩

/-- The first delivery is shown. -/
theorem firstDelivery_forward : ∃ s₁ s₂ s₃ s₄,
    oneTopicTable.1.Shows (.lit "t") s₁ s₂ (0, 0) ∧
      oneTopicTable.1.Shows (.lit "t") s₃ s₄ (1, 0) := by
  obtain ⟨before, d, d₁, between, d₂, d₃, h, h₁, hbetween, hno, h₂, hsucc, hfail⟩ :=
    oneTopicTable_stats 0
  obtain ⟨s₁, s₂, s₃, s₄, -, ⟨-, h₃₄, h₄⟩, hiff⟩ := stats_forward_iff h h₁ hbetween hno h₂
  have hs : oneTopicTable.1.reports successes (.lit "t") s₃ < 2 ^ 32 :=
    (hsucc ▸ successes_mono (h₃₄.trans h₄)).trans_lt (by decide : 0 + 1 < 2 ^ 32)
  have hf : oneTopicTable.1.reports failures (.lit "t") s₄ < 2 ^ 32 :=
    (hfail ▸ failures_mono h₄).trans_lt (by decide : 0 < 2 ^ 32)
  obtain ⟨hearlier, hlater, -⟩ := hiff.mpr ⟨hs, hf⟩
  exact ⟨s₁, s₂, s₃, s₄, hearlier, hlater⟩

end TrigEmit
