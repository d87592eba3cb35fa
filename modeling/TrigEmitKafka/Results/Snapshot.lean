import TrigEmitKafka.Results.Info

/-!
# Results — `kafka_info` among other sessions

`kafka_info` takes the table lock twice, for the broker list and for the parameters, and other
sessions may run between the two.

* `info_reads_twice`: it shows the broker list of one state and the parameters of a later one, both
  between its start and its return; they are of one state unless both changed in between, and the
  parameters do not change while there is a producer.
* `mixedInfo_shown`: a run in which it shows a state that never was.
-/

namespace TrigEmit

open Conc (Cfg Label)
open Conc.Logic (allowed_any)

/-! ### Parameters while connected -/

/-- No call changes the parameters of a connected world. -/
theorem Effect.frozen {W W' : World} {b b' : View} {F : Prop} {c : TableCall} {r : c.Ret}
    (he : Effect F c W b r W' b') (hc : W.obs.seen.connected = true) :
    W'.obs.params = W.obs.params := by
  cases c with
  | setParam name value =>
      by_cases hr : r = .ok ()
      · obtain ⟨n, v, -, -, -, hset⟩ := he.2.1 hr
        have hnone := (hset.ok hr).1
        rw [(World.obs_disconnected hnone).1] at hc
        cases hc
      · rw [(he.2.2 hr).1.obs]
  | unsetParam name =>
      obtain ⟨-, ⟨n, -, -, hu⟩ | ⟨-, -, rfl⟩⟩ := he
      · by_cases hr : r = 0
        · have hnone := (hu.ok hr).1
          rw [(World.obs_disconnected hnone).1] at hc
          cases hc
        · rw [(hu.fail hr).2.1.obs]
      · rfl
  | _ => exact he.params fun h => h

/-- Whatever is done next, the parameters of a connected table stay. -/
theorem Sessions.step_frozen {package : PackageString} {s s' : Sessions}
    {l : Label Course Ev Command} (h : Sessions.Reachable package s)
    (hc : s.sh.seen.connected = true) (hs : s.step tableIface (commandProg package) l = some s') :
    s'.sh.seen.params = s.sh.seen.params := by
  rcases Cfg.step_act hs with ⟨hsh, -⟩ | ⟨t, c, course, r, -, -, he⟩ | ⟨hsh, -⟩
  · rw [hsh]
  · obtain ⟨hi, W, hW, hT⟩ := Sessions.Reachable.world h
    obtain ⟨-, W', b', hT', -, -, -, heff⟩ := exec_effect hi hT hW (allowed_any course) he
    rw [hT.seen] at hc ⊢
    rw [hT'.seen]
    exact heff.frozen hc
  · rw [hsh]

/-- As long as the table is connected, its parameters stay. -/
theorem Sessions.run_frozen {package : PackageString} {s s' : Sessions}
    {ls : List (Label Course Ev Command)} (h : Sessions.Reachable package s)
    (hrun : Cfg.run tableIface (commandProg package) ls s = some s')
    (hc : ∀ l₁ l₂ s₁, ls = l₁ ++ l₂ → Cfg.run tableIface (commandProg package) l₁ s = some s₁ →
      s₁.sh.seen.connected = true) :
    s'.sh.seen.params = s.sh.seen.params := by
  induction ls generalizing s with
  | nil =>
      cases hrun
      rfl
  | cons l ls ih =>
      obtain ⟨s₁, hstep, hrest⟩ := Option.bind_eq_some_iff.mp hrun
      have hfirst := Sessions.step_frozen h (hc [] _ s rfl rfl) hstep
      refine (ih (h.step l hstep) hrest fun l₁ l₂ s₂ e h₂ => ?_).trans hfirst
      refine hc (l :: l₁) l₂ s₂ (by rw [e]; rfl) ?_
      exact Option.bind_eq_some_iff.mpr ⟨s₁, hstep, h₂⟩

/-! ### Two readings -/

/-- What `kafka_info` shows when it reads the broker list in `s₁`, the parameters in `s₂`, and `ls`
happens from the one to the other. -/
structure ReadTwice (package : PackageString) (s₁ : Sessions)
    (ls : List (Label Course Ev Command)) (s₂ : Sessions) (r : List UInt8 × Nat) : Prop where
  shown : r = Seen.info package { s₂.sh.seen with brokers := s₁.sh.seen.brokers }
  /-- It is the first state's if the parameters are the same. -/
  first : s₂.sh.seen.params = s₁.sh.seen.params → r = s₁.sh.seen.info package
  /-- It is the second state's if the broker list is. -/
  second : s₂.sh.seen.brokers = s₁.sh.seen.brokers → r = s₂.sh.seen.info package
  /-- The parameters are the same if there is a producer all the while. -/
  frozen : (∀ l₁ l₂ s, ls = l₁ ++ l₂ →
    Cfg.run tableIface (commandProg package) l₁ s₁ = some s → s.sh.seen.connected = true) →
    s₂.sh.seen.params = s₁.sh.seen.params

/-- The text depends on the broker list and the parameters alone. -/
theorem Seen.info_congr {package : PackageString} {a b : Seen} (hb : a.brokers = b.brokers)
    (hp : a.params = b.params) : a.info package = b.info package := by
  rw [Seen.info, Seen.info, Seen.describeParams, Seen.describeParams, Seen.brokerLine,
    Seen.brokerLine, hb, hp]

/-- **`kafka_info` reads twice**: the broker list of one state of the run and the parameters of a
later one, both between its start and its return. -/
theorem info_reads_twice {package : PackageString} {s₀ s' : Sessions} {t : Nat}
    {ls : List (Label Course Ev Command)} {r : List UInt8 × Nat}
    (h₀ : Sessions.Reachable package s₀)
    (hrun : Cfg.run tableIface (commandProg package) (.start t .info :: ls) s₀ = some s')
    (hret : s'.thr t = some ⟨.info, .ret r⟩) (hno : Label.finish t ∉ ls) :
    ∃ l₁ l₂ l₃ s₁ s₂, ls = l₁ ++ l₂ ++ l₃ ∧
      Cfg.run tableIface (commandProg package) (.start t .info :: l₁) s₀ = some s₁ ∧
      Cfg.run tableIface (commandProg package) l₂ s₁ = some s₂ ∧
      Cfg.run tableIface (commandProg package) l₃ s₂ = some s' ∧
      ReadTwice package s₁ l₂ s₂ r := by
  obtain ⟨s, hstart, hls⟩ := Option.bind_eq_some_iff.mp hrun
  have hs : s.thr t = some ⟨.info, kafkaInfo package⟩ := by
    simp only [Cfg.step] at hstart
    split at hstart <;> cases hstart
    exact Function.update_self ..
  obtain ⟨l₁, course₁, l, s₁, b, T₁, d₁, s₁', rfl, hl₁, hb, hstep₁, rfl, hk₁, hl⟩ :=
    Cfg.run_op hls hs hret
  obtain ⟨l₂, course₂, l₃, s₂, p, T₂, d₂, s₂', rfl, hl₂, hp, hstep₂, rfl, hk₂, hl₃⟩ :=
    Cfg.run_op hl hk₁ hret
  have hrun₁ : Cfg.run tableIface (commandProg package) (.start t .info :: l₁) s₀ = some s₁ :=
    Option.bind_eq_some_iff.mpr ⟨s, hstart, hl₁⟩
  have hrun₂ : Cfg.run tableIface (commandProg package) (.step t course₁ :: l₂) s₁ = some s₂ :=
    Option.bind_eq_some_iff.mpr ⟨s₁', hstep₁, hl₂⟩
  have hrun₃ : Cfg.run tableIface (commandProg package) (.step t course₂ :: l₃) s₂ = some s' :=
    Option.bind_eq_some_iff.mpr ⟨s₂', hstep₂, hl₃⟩
  have hreach₁ := h₀.trans (Cfg.reach_of_run hrun₁)
  have hreach₂ := hreach₁.trans (Cfg.reach_of_run hrun₂)
  -- the two answers, each from the state it is read in
  obtain ⟨rfl, -⟩ := (Sessions.Reachable.state hreach₁).getBrokers_exec hb
  obtain ⟨rfl, -⟩ := (Sessions.Reachable.state hreach₂).describeParams_exec hp
  have hvalue := hret.symm.trans (Cfg.run_ret hl₃ hk₂ fun hm => hno (by simp [hm]))
  have hshown : r = Seen.info package { s₂.sh.seen with brokers := s₁.sh.seen.brokers } := by
    cases hvalue
    exact Seen.info_eq package { s₂.sh.seen with brokers := s₁.sh.seen.brokers }
  refine ⟨l₁, _, _, s₁, s₂, by simp, hrun₁, hrun₂, hrun₃, hshown, ?_, ?_, ?_⟩
  · intro hp
    rw [hshown]
    exact Seen.info_congr rfl hp
  · intro hb
    rw [hshown]
    exact Seen.info_congr hb.symm rfl
  · exact fun hc => Sessions.run_frozen hreach₁ hrun₂ hc

/-! ### A run -/

/-- What session `t` is about to return from `kafka_info`. -/
def Sessions.showing (s : Sessions) (t : Nat) : Option (List UInt8 × Nat) :=
  match s.thr t with
  | some ⟨.info, .ret r⟩ => some r
  | _                    => none

theorem Sessions.thr_of_showing {s : Sessions} {t : Nat} {r : List UInt8 × Nat}
    (h : Sessions.showing s t = some r) : s.thr t = some ⟨.info, .ret r⟩ := by
  unfold Sessions.showing at h
  split at h
  · cases h
    assumption
  · cases h

/-- A session connects. -/
def connecting : List (Label Course Ev Command) :=
  running 1 (.connect (some (CStr.lit "b").1)) [quietly 20]

/-- `kafka_disconnect` without an argument: the poll thread sees that it is to stop. -/
def dismissing : Course := quietly 8 ++ [.env (.pollCheck 0)] ++ quietly 11

/-- Between the two readings another session disconnects and sets a parameter. -/
def mixedInfo : List (Label Course Ev Command) :=
  .step 0 (quietly 5) :: running 1 (.disconnect none) [dismissing] ++
    running 1 (.connectionParam (some (CStr.lit "acks").1) (some (CStr.lit "2").1)) [quietly 11] ++
    [.step 0 (quietly 5)]

/-- What it shows: the broker list, and the parameter set after the disconnect. -/
def mixedText : List UInt8 × Nat :=
  Seen.info somePackage ⟨false, some (.lit "b"), [(.lit "acks", .lit "2")], []⟩

theorem run_connecting {s₀ : Sessions}
    (h : Cfg.run tableIface (commandProg somePackage) connecting Sessions.initial = some s₀)
    (ls : List (Label Course Ev Command)) :
    Cfg.run tableIface (commandProg somePackage) ls s₀ =
      Cfg.run tableIface (commandProg somePackage) (connecting ++ ls) Sessions.initial := by
  rw [Cfg.run_append, h]
  rfl

/-- The run, and what it comes to. -/
theorem mixedInfo_run : ∃ s₀ s' : Sessions,
    Cfg.run tableIface (commandProg somePackage) connecting Sessions.initial = some s₀ ∧
    Cfg.run tableIface (commandProg somePackage) (.start 0 .info :: mixedInfo) s₀ = some s' ∧
    Label.finish 0 ∉ mixedInfo ∧ s'.thr 0 = some ⟨.info, .ret mixedText⟩ := by
  have hpast : (Cfg.run tableIface (commandProg somePackage) connecting Sessions.initial).isSome := by
    decide +kernel
  obtain ⟨s₀, hs₀⟩ := Option.isSome_iff_exists.mp hpast
  have hend : (Cfg.run tableIface (commandProg somePackage)
      (connecting ++ .start 0 .info :: mixedInfo) Sessions.initial).bind
        (Sessions.showing · 0) = some mixedText := by
    decide +kernel
  obtain ⟨s', hs', hshown⟩ := Option.bind_eq_some_iff.mp hend
  refine ⟨s₀, s', hs₀, (run_connecting hs₀ _).trans hs', ?_, Sessions.thr_of_showing hshown⟩
  simp [mixedInfo, running]

/-- The run reads twice. -/
theorem mixedInfo_reads_twice : ∃ s₀ s' : Sessions,
    Cfg.run tableIface (commandProg somePackage) (.start 0 .info :: mixedInfo) s₀ = some s' ∧
    ∃ l₁ l₂ l₃ s₁ s₂, mixedInfo = l₁ ++ l₂ ++ l₃ ∧
      Cfg.run tableIface (commandProg somePackage) (.start 0 .info :: l₁) s₀ = some s₁ ∧
      Cfg.run tableIface (commandProg somePackage) l₂ s₁ = some s₂ ∧
      Cfg.run tableIface (commandProg somePackage) l₃ s₂ = some s' ∧
      ReadTwice somePackage s₁ l₂ s₂ mixedText := by
  obtain ⟨s₀, s', hs₀, hrun, hno, hret⟩ := mixedInfo_run
  exact ⟨s₀, s', hrun, info_reads_twice (Cfg.reach_of_run hs₀) hrun hret hno⟩

/-- **No state of the run** looks like what is shown. -/
theorem mixedInfo_shown : ∃ s₀ s' : Sessions, Sessions.Reachable somePackage s₀ ∧
    Cfg.run tableIface (commandProg somePackage) (.start 0 .info :: mixedInfo) s₀ = some s' ∧
    Label.finish 0 ∉ mixedInfo ∧ s'.thr 0 = some ⟨.info, .ret mixedText⟩ ∧
    ∀ l₁ l₂ s, mixedInfo = l₁ ++ l₂ →
      Cfg.run tableIface (commandProg somePackage) (.start 0 .info :: l₁) s₀ = some s →
      mixedText ≠ s.sh.seen.info somePackage := by
  obtain ⟨s₀, s', hs₀, hrun, hno, hret⟩ := mixedInfo_run
  have hnever : ∀ n ≤ mixedInfo.length, ((Cfg.run tableIface (commandProg somePackage)
      (connecting ++ .start 0 .info :: mixedInfo.take n) Sessions.initial).all fun s =>
        mixedText ≠ s.sh.seen.info somePackage) = true := by
    decide +kernel
  refine ⟨s₀, s', Cfg.reach_of_run hs₀, hrun, hno, hret, ?_⟩
  intro l₁ l₂ s e hs
  have hl : l₁ = mixedInfo.take l₁.length := by rw [e, List.take_left']; rfl
  have hle : l₁.length ≤ mixedInfo.length := by rw [e, List.length_append]; omega
  have hall := hnever _ hle
  rw [← hl, ← run_connecting hs₀, hs] at hall
  exact of_decide_eq_true hall

end TrigEmit
