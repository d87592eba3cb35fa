import TrigEmitKafka.Results.Failures

/-!
# Results — the stored parameters while connected, and after

* `params_frozen`: in every reachable state with a producer the stored parameters are exactly
  those the producer was built from, over the defaults; what `kafka_table_describe_params` renders
  is them; and after `kafka_table_dismiss_all` they are still there, so that, with none set or
  unset since, a connect to the same brokers hands `rd_kafka_new` the same configuration.
-/

namespace TrigEmit

open Conc (Cfg Label exec)
open Conc.Logic (Allowed alone)

/-- A configuration: the defaults, then the parameters `ps`. -/
def Conf.over (brokers : CStr) (ps : List (CStr × CStr)) : Conf :=
  ⟨producerDefaults brokers ++ ps, true⟩

theorem applied_eq (T : Tab) (brokers : CStr) :
    applied brokers T.kt.params.items = .over brokers T.seen.params := rfl

/-- With none set or unset, a run leaves the stored parameters. -/
theorem Runs.params {allows : Ans → Prop} {T T' : Tab} {d d' : Flow} {hs : List Finished}
    (h : Runs allows T d hs T' d') (hi : Inv T d) (hT : TableInv T)
    (hno : ∀ x ∈ hs, ¬ x.c.Mutates) : T'.seen.params = T.seen.params := by
  induction h with
  | nil => rfl
  | env e _ _ ih => exact ih hno
  | call course hrun hok he ih =>
      obtain ⟨hi₁, W, hW, hT₁⟩ := hrun.world hi hT
      obtain ⟨-, W', b', hT₂, -, -, -, heff⟩ := exec_effect hi₁ hT₁ hW hok he
      have hp := heff.params (hno _ (List.mem_append_right _ (List.mem_singleton_self _)))
      rw [hT₂.seen, ← ih fun x hx => hno x (List.mem_append_left _ hx), hT₁.seen]
      exact hp

/-- The stored parameters are frozen in `s`, and survive a disconnect. -/
structure ParamsFrozen (s : Machine) : Prop where
  /-- They are what the producer was built from: the last configuration handed to
  `rd_kafka_new`, and its instance's. -/
  built : ∀ tk, s.sh.kt.producer = some tk → ∃ brokers,
    s.sh.handed.getLast? = some (.over brokers s.sh.seen.params) ∧
    ∀ v rk r, s.sh.producers.get tk = some v → v.rk = some rk → s.sh.rks.get rk = some r →
      r.conf = .over brokers s.sh.seen.params
  /-- They are what is rendered. -/
  rendered : s.lock.NoWriter → ∀ t buflen course r T' d', buflen ≠ 0 →
    exec iface t (tableProg (.describeParams buflen)) course s.sh s.fr = some (r, T', d') →
    r = (cInt s.sh.seen.params.length, described buflen s.sh.seen.params 0 [])
  /-- They survive `kafka_table_dismiss_all`, and a connect to the same brokers uses them. -/
  survive : s.lock.NoWriter → ∀ bs, s.sh.seen.brokers = some bs → ∀ t course r T₁ d₁,
    exec iface t (tableProg .dismissAll) course s.sh s.fr = some (r, T₁, d₁) →
    T₁.seen.params = s.sh.seen.params ∧
    ∀ allows hs T₂ d₂, Runs allows T₁ d₁ hs T₂ d₂ → (∀ x ∈ hs, ¬ x.c.Mutates) →
    ∀ t' course' r' T₃ d₃,
      exec iface t' (tableProg (.connect (some bs))) course' T₂ d₂ = some (r', T₃, d₃) →
      (r' = .ok () → T₃.handed.length = T₂.handed.length + 1) ∧
      ∀ conf, T₃.handed = T₂.handed ++ [conf] → s.sh.handed.getLast? = some conf

/-- The list handed out last, at a world that is connected. -/
theorem Tab.Is.last {T : Tab} {W : World} (h : T.Is W.cells) (hW : W.Ok) {bs : CStr}
    (hb : T.seen.brokers = some bs) : T.handed.getLast? = some (.over bs T.seen.params) := by
  rw [h.seen] at hb
  obtain ⟨p, hp, rfl⟩ := Option.map_eq_some_iff.mp hb
  obtain ⟨conn, hc, rfl⟩ := Option.map_eq_some_iff.mp hp
  rw [h.handed, show W.cells.handed = W.handed from rfl, hW.last conn hc, (hW.conn conn hc).conf,
    h.seen]
  rfl

/-- **The configuration is frozen while connected and survives a disconnect.** -/
theorem params_frozen {s : Machine} (hs : s.Reachable) : ParamsFrozen s where
  built tk htk := hs.inv.frozen tk htk
  rendered hn t buflen course r T' d' hb he := by
    obtain ⟨W, hW, hT⟩ := hs.world hn
    obtain ⟨-, W', b', -, -, -, -, -, -, hr⟩ := exec_effect hs.inv hT hW
      (Conc.Logic.allowed_any course) he
    rw [hr, if_neg hb, hT.seen]; rfl
  survive hn bs hbs t course r T₁ d₁ he := by
    obtain ⟨W, hW, hT⟩ := hs.world hn
    obtain ⟨hi₁, W₁, b₁, hT₁, hW₁, -, -, -, ho, -, hh⟩ := exec_effect
      hs.inv hT hW (Conc.Logic.allowed_any course) he
    have hp₁ : T₁.seen.params = s.sh.seen.params := by rw [hT₁.seen, hT.seen, ho]; rfl
    refine ⟨hp₁, fun allows hs₂ T₂ d₂ hrun hno t' course' r' T₃ d₃ he' => ?_⟩
    have hp₂ := hrun.params hi₁ ⟨W₁, hW₁, hT₁⟩ hno
    obtain ⟨hi₂, W₂, hW₂, hT₂⟩ := hrun.world hi₁ ⟨W₁, hW₁, hT₁⟩
    obtain ⟨-, W₃, b₃, hT₃, -, -, -, -, hok, -, hhand⟩ := exec_effect
      hi₂ hT₂ hW₂ (Conc.Logic.allowed_any course') he'
    have h₂ : T₂.handed = W₂.handed := hT₂.handed
    have h₃ : T₃.handed = W₃.handed := hT₃.handed
    refine ⟨fun hr => ?_, fun conf hconf => ?_⟩
    · obtain ⟨bs', -, -, hconn⟩ := hok hr
      rw [h₂, h₃, (hconn.ok hr).2.1, List.length_append, List.length_singleton]
    · rw [h₂, h₃] at hconf
      rcases hhand with e | ⟨bs', e', e⟩
      · rw [e] at hconf
        exact absurd (congrArg List.length hconf) (by simp)
      · cases e'
        obtain rfl : applied bs W₂.params.items = conf := by
          simpa using (List.append_cancel_left (e.symm.trans hconf))
        have hk₂ : W₂.params.items = T₂.kt.params.items := by rw [hT₂.kt]; rfl
        rw [hT.last hW hbs, hk₂, applied_eq, hp₂, hp₁]

/-! ### A run -/

/-- A parameter is set, and a producer is built from it. -/
def connectedWithParam : List (Label Ans Ev TableCall) :=
  calling 2 (.setParam (some (.lit "acks")) (some (.lit "1"))) 11 ++
    calling 0 (.connect (some (.lit "b"))) 24

/-- The parameter is frozen. -/
theorem connectedWithParam_frozen : ∃ s : Machine,
    Cfg.run iface tableProg connectedWithParam Machine.initial = some s ∧
      s.sh.kt.producer = some 0 ∧ s.sh.seen.params = [(.lit "acks", .lit "1")] ∧
      ParamsFrozen s := by
  have hrun : (Cfg.run iface tableProg connectedWithParam Machine.initial).map (fun s =>
      (s.sh.kt.producer, s.sh.seen.params)) = some (some 0, [(.lit "acks", .lit "1")]) := by
    decide +kernel
  obtain ⟨s, hs, he⟩ := Option.map_eq_some_iff.mp hrun
  simp only [Prod.mk.injEq] at he
  exact ⟨s, hs, he.1, he.2, params_frozen (Cfg.reach_of_run hs)⟩

end TrigEmit
