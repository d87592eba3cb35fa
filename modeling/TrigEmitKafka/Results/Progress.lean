import TrigEmitKafka.Results.Confinement
import TrigEmitKafka.Rules.Serving
import TrigEmitKafka.Rules.Writers
import TrigEmitKafka.Support.Progress

/-!
# Results — the sessions let go of the lock, and come to rest

No call waits for another session, but for the lock: `kafka_table_dismiss_all` and a connect that
fails wait for the poll thread, which they told to stop, and for librdkafka to serve its reports;
`kafka_table_send` waits for room in the queue.

* `holder_lets_go`: a session that holds the lock can let go of it while no other session moves.
* `no_deadlock`: from every reachable state all the calls can return, and the lock is free then.
* `joining_comes_to_rest`: so it is in the middle of a disconnect, with a message on its way and the
  poll thread still at work.
-/

namespace TrigEmit

open Conc (Cfg Duty EnvBy Label LProg Manners Prog)
open Conc.Logic (Disciplined Good Unblocked)
open Store (Heap)

instance : Inhabited Ans := ⟨.ok⟩

/-! ### Programs that end -/

/-- `rd_kafka_produce` does not find the queue full. -/
def Answered : (o : Op) → o.Res → Prop
  | .rdKafkaProduce _ _ _ _, r => r ≠ .error queueFull
  | _,                       _ => True

/-- The message is taken or refused in one round. -/
theorem feedRound_ends (tt rkt rk : Nat) (key : Option (List UInt8)) (data : List UInt8) :
    (feedRound tt rkt rk key data).Ends Answered fun x => x.isSome := by
  intro r hr
  cases r with
  | ok u => exact fun _ _ _ _ => rfl
  | error err =>
      have hfull : err ≠ queueFull := fun e => hr (e ▸ rfl)
      change LProg.Ends Answered (if err = queueFull then _ else _) _
      rw [if_neg hfull]
      rfl

/-- Any operation. -/
def Op.Any (_ : Op) : Prop := True

theorem feedRound_straight (tt rkt rk : Nat) (key : Option (List UInt8)) (data : List UInt8) :
    (feedRound tt rkt rk key data).Straight Op.Any := by
  have hpoll : (rdKafkaPoll rk).Straight Op.Any := .op trivial fun _ => .call trivial
  refine .op trivial fun r => ?_
  split
  · split
    · exact hpoll.bind fun _ => .pure
    · exact .pure
  · exact hpoll.bind fun _ => .pure

theorem feed_able (tt : Nat) (data : List UInt8) :
    (tekKafkaTopicFeed tt data).Able Answered := by
  refine LProg.Able.bind (LProg.Able.of_straight (P := Op.Any) (.call trivial)) fun v => ?_
  split
  · refine LProg.Able.bind (LProg.Able.of_straight (P := Op.Any) (.call trivial)) fun p => ?_
    split
    · trivial
    · exact ⟨feedRound_ends .., .of_straight (feedRound_straight ..), fun _ => trivial⟩
  · trivial

/-- **Every call** is able to end. -/
theorem tableProg_able (c : TableCall) : (tableProg c).Able Answered := by
  have htame : ∀ {α : Type} {p : K α}, p.Straight Op.Tame → p.Able Answered := fun hp =>
    .of_straight hp
  cases c with
  | connected => exact htame connected_tame
  | validateParam name value => exact htame (validateParam_tame name value)
  | setParam name value => exact htame (setParam_tame name value)
  | getBrokers buflen => exact htame (getBrokers_tame buflen)
  | describeParams buflen => exact htame (kafkaTableDescribeParams_tame buflen)
  | «exists» topic => exact htame (exists_tame topic)
  | create topicName => exact htame (create_tame topicName)
  | unsetParam name => exact htame (unsetParam_tame name)
  | getStats topic => exact htame (getStats_tame topic)
  | dismiss topic => exact .of_straight (dismiss_calm topic)
  | dismissAll => exact .of_straight (straight_writing dismissAllLocked_unsent)
  | connect brokers =>
      cases brokers with
      | none => trivial
      | some b =>
          simp only [tableProg, kafkaTableConnect]
          split
          · trivial
          · exact .of_straight (straight_writing (connectLocked_unsent b))
  | send topic data =>
      have hlock : ∀ p : K Unit, p.Straight Op.Any → p.Able Answered := fun p hp => .of_straight hp
      refine LProg.Able.bind (LProg.Able.bind (hlock _ ⟨trivial, fun _ => trivial⟩) fun _ => ?_)
        fun sent => trivial
      refine LProg.Able.bind ?_ fun r => LProg.Able.bind (hlock _ ⟨trivial, fun _ => trivial⟩)
        fun _ => trivial
      refine LProg.Able.bind (.of_straight (tame_of_peeks (peeks_find topic))) fun found => ?_
      cases found with
      | none => trivial
      | some tt => exact (feed_able tt data).bind fun _ => trivial

/-! ### No operation waits for another session -/

section machine

variable {s : Machine}

/-- What a session is about to do, the duty allows. -/
theorem Machine.Reachable.tells (h : s.Reachable) {t : Nat} {o : Op} (ht : s.next t = some o) :
    tellsFirst.needs o s.sh := by
  obtain ⟨c, k, hthr⟩ := Cfg.next_eq_some.mp ht
  by_cases hheld : s.lock.held t = .none
  · -- outside the lock only the throwaway configuration is touched
    have hv : o.Valid t .none s.sh s.fr := hheld ▸ h.good.valid hthr
    cases o with
    | storeTk tk v => exact absurd hv.1 Conc.Held.noConfusion
    | pthreadCreate tk => exact absurd hv.1 Conc.Held.noConfusion
    | pthreadJoin thr => exact absurd hv.1 Conc.Held.noConfusion
    | _ => trivial
  · obtain ⟨ls, hrun⟩ := Cfg.Reach.runBy h
    have hneeds := Duty.needs_of_runBy (C := fun _ => True) (fun c _ => tableProg_tellsFirst c)
      (fun _ _ _ _ _ _ hs => hs) Machine.good_initial hrun trivial hthr hheld
    exact hneeds.resolve_left id

/-- In every reachable state there is one poll thread at most, and it is at work. -/
theorem Machine.Reachable.attentive (h : s.Reachable) : Attentive s.sh s.fr := by
  induction h with
  | refl => exact attentive_init
  | @step s₁ s₂ l h₁ hs ih =>
      have hr : Machine.Reachable s₁ := h₁
      rcases Cfg.step_act hs with ⟨hsh, hfr⟩ | ⟨t, o, a, r, -, hnext, ha⟩ | ⟨hsh, e, -, he⟩
      · rw [hsh, hfr]
        exact ih
      · obtain ⟨c, k, hthr⟩ := Cfg.next_eq_some.mp hnext
        exact ih.act (hr.good.valid hthr) (hr.tells hnext) ha
      · rw [hsh]
        exact ih.env he

end machine

/-! ### What librdkafka and the poll thread can do -/

/-- The steps librdkafka may take. -/
def manners : Manners Flow Ev where
  env
    | .cbEnter _ u _,  d => d.Serves u ∧ ¬ d.RunsOn u
    | .pollReturn thr, d => ¬ d.RunsOn (.poll thr)
    | _,               _ => True
  step t d := ¬ d.RunsOn (.session t)

theorem proper_of_allows {s : Machine} {l : Label Ans Ev TableCall}
    (h : manners.Allows s.fr l) : Proper s l := by
  cases l with
  | env e => cases e <;> exact h
  | _ => exact h

/-- No callback runs. -/
def Flow.Still (d : Flow) : Prop := ∀ q ∈ d.inflight, q.stage = .queued

theorem Flow.Still.not_runsOn {d : Flow} (h : d.Still) (u : Thread) : ¬ d.RunsOn u := by
  rintro ⟨q, hq, hu⟩
  rw [h q hq] at hu
  cases hu

/-- The two differ in their messages at most. -/
structure Flow.Beside (d d' : Flow) : Prop where
  phase : d'.phase = d.phase
  serving : d'.serving = d.serving

theorem Flow.Beside.trans {d d₁ d₂ : Flow} (h : d.Beside d₁) (h' : d₁.Beside d₂) : d.Beside d₂ :=
  ⟨h'.phase.trans h.phase, h'.serving.trans h.serving⟩

section env

variable {T : Tab} {d : Flow}

/-- A step of the environment, as it may take it. -/
theorem EnvBy.one {e : Ev} {d' : Flow} (he : e.act T d = some d') (hm : manners.env e d) :
    EnvBy iface manners T d d' :=
  .step e hm he (.refl d')

/-- A callback that runs can return. -/
theorem callback_returns {i : Nat} {q : Pending} (hq : d.inflight[i]? = some q)
    (hs : q.stage ≠ .queued) :
    ∃ d', EnvBy iface manners T d d' ∧ d'.inflight = d.inflight.eraseIdx i ∧ d.Beside d' := by
  have hreturn : ∀ {m : Message} {u : Thread} {d : Flow}, d.inflight[i]? = some ⟨m, .counted u⟩ →
      ∃ d', EnvBy iface manners T d d' ∧ d'.inflight = d.inflight.eraseIdx i ∧ d.Beside d' := by
    intro m u d hq
    have he : Ev.act (.cbReturn i) T d = some { d with inflight := d.inflight.eraseIdx i } := by
      simp only [Ev.act, hq]
    exact ⟨_, EnvBy.one he trivial, rfl, rfl, rfl⟩
  obtain ⟨m, stage⟩ := q
  cases stage with
  | queued => exact absurd rfl hs
  | counted u => exact hreturn hq
  | running u err =>
      have he : Ev.act (.cbCount i 0) T d =
          some { d.count m err 0 with inflight := d.inflight.set i ⟨m, .counted u⟩ } := by
        simp only [Ev.act, hq]
      obtain ⟨hi, -⟩ := List.getElem?_eq_some_iff.mp hq
      obtain ⟨d', hsteps, hd', hb⟩ := hreturn (m := m) (u := u)
        (d := { d.count m err 0 with inflight := d.inflight.set i ⟨m, .counted u⟩ })
        (List.getElem?_set_self hi)
      refine ⟨d', (EnvBy.one he trivial).trans hsteps, hd'.trans ?_, hb.phase, hb.serving⟩
      exact List.eraseIdx_set_eq ..

/-- **Every callback can return.** -/
theorem callbacks_return (T : Tab) (d : Flow) :
    ∃ d', EnvBy iface manners T d d' ∧ d'.Still ∧ d.Beside d' := by
  induction hn : d.inflight.length generalizing d with
  | zero =>
      refine ⟨d, .refl d, fun q hq => ?_, rfl, rfl⟩
      rw [List.length_eq_zero_iff.mp hn] at hq
      cases hq
  | succ n ih =>
      by_cases hstill : d.Still
      · exact ⟨d, .refl d, hstill, rfl, rfl⟩
      · simp only [Flow.Still, not_forall] at hstill
        obtain ⟨q, hq, hs⟩ := hstill
        obtain ⟨i, hi, rfl⟩ := List.getElem_of_mem hq
        obtain ⟨d₁, hsteps, hd₁, hb⟩ := callback_returns (T := T) (List.getElem?_eq_getElem hi) hs
        obtain ⟨d₂, hsteps', hd₂, hb'⟩ := ih d₁ (by
          rw [hd₁, List.length_eraseIdx_of_lt hi]
          omega)
        exact ⟨d₂, hsteps.trans hsteps', hd₂, hb.trans hb'⟩

/-- **A session that serves reports can have served them all.** -/
theorem reports_served {t : Nat} (ht : t ∈ d.serving) (hd : d.Still) :
    ∃ d', EnvBy iface manners T d d' ∧ d'.inflight = [] ∧ d.Beside d' := by
  induction hi : d.inflight generalizing d with
  | nil => exact ⟨d, .refl d, hi, rfl, rfl⟩
  | cons q qs ih =>
      obtain ⟨m, stage⟩ := q
      have hstage : stage = .queued := hd ⟨m, stage⟩ (by rw [hi]; exact List.mem_cons_self)
      subst hstage
      have he : Ev.act (.cbEnter 0 (.session t) noError) T d =
          some { d with inflight := ⟨m, .running (.session t) noError⟩ :: qs } := by
        simp only [Ev.act, hi, List.getElem?_cons_zero, List.set_cons_zero]
      obtain ⟨d₁, hsteps, hd₁, hb⟩ := callback_returns (T := T) (i := 0)
        (d := { d with inflight := ⟨m, .running (.session t) noError⟩ :: qs })
        (q := ⟨m, .running (.session t) noError⟩) rfl (fun e => by cases e)
      have hqs : d₁.inflight = qs := hd₁
      obtain ⟨d₂, hsteps', hd₂, hb'⟩ := ih (d := d₁) (by rw [hb.serving]; exact ht)
        (fun q hq => hd q (by rw [hi]; exact List.mem_cons_of_mem _ (hqs ▸ hq))) hqs
      have henter := EnvBy.one he ⟨ht, hd.not_runsOn _⟩
      exact ⟨d₂, (henter.trans hsteps).trans hsteps', hd₂, (hb.trans hb').phase, (hb.trans hb').serving⟩

/-- **A poll thread that was told to stop can exit.** -/
theorem Tab.Told.exits {thr : Nat} (h : T.Told thr) (hi : Inv T d) (hd : d.Still) :
    ∃ d', EnvBy iface manners T d d' ∧ d'.phase thr = .exited ∧ d'.Still := by
  have hcheck : ∀ {d : Flow}, Inv T d → d.Still → d.phase thr = .checking →
      ∃ d', EnvBy iface manners T d d' ∧ d'.phase thr = .exited ∧ d'.Still := by
    intro d hi hd hph
    obtain ⟨tk, htk⟩ := Option.isSome_iff_exists.mp (hi.alive thr (by rw [hph]; decide))
    obtain ⟨v, rk, hv, -⟩ := hi.polls thr tk htk
    have he : Ev.act (.pollCheck thr) T d =
        some { d with phase := Function.update d.phase thr .exited } := by
      simp [Ev.act, hph, htk, hv, h tk v htk hv]
    exact ⟨_, EnvBy.one he trivial, Function.update_self .., hd⟩
  cases hph : d.phase thr with
  | exited => exact ⟨d, .refl d, hph, hd⟩
  | checking => exact hcheck hi hd hph
  | polling =>
      have he : Ev.act (.pollReturn thr) T d =
          some { d with phase := Function.update d.phase thr .checking } := by
        simp only [Ev.act, hph]
      obtain ⟨d', hsteps, hd'⟩ := hcheck (hi.env he) hd (Function.update_self ..)
      exact ⟨d', (EnvBy.one he (hd.not_runsOn _)).trans hsteps, hd'⟩

end env

/-! ### The sessions -/

section machine

variable {s : Machine}

/-- librdkafka and the poll thread alone can bring about that an operation is answered, where no
callback runs. -/
theorem Machine.Reachable.ready_still (h : s.Reachable) (hd : s.fr.Still) {t : Nat} {o : Op}
    (ht : s.next t = some o) :
    ∃ d₁, EnvBy iface manners s.sh s.fr d₁ ∧ manners.step t d₁ ∧
      ∃ a r T' d', o.act t a s.sh d₁ = some (r, T', d') ∧ Answered o r := by
  obtain ⟨c, k, hthr⟩ := Cfg.next_eq_some.mp ht
  have hv : o.Valid t (s.lock.held t) s.sh s.fr := h.good.valid hthr
  have hquick : o.Quick → ∃ d₁, EnvBy iface manners s.sh s.fr d₁ ∧ manners.step t d₁ ∧
      ∃ a r T' d', o.act t a s.sh d₁ = some (r, T', d') ∧ Answered o r := by
    intro ho
    obtain ⟨⟨r, T', d'⟩, ha⟩ := Option.isSome_iff_exists.mp (ho.ready hv)
    refine ⟨s.fr, .refl _, hd.not_runsOn _, _, r, T', d', ha, ?_⟩
    cases o <;> first | exact ho.elim | trivial
  cases o with
  | rdKafkaProduce rkt payload key tt =>
      exact ⟨s.fr, .refl _, hd.not_runsOn _, .fail (-1) "", .error (-1), s.sh, s.fr, rfl,
        fun e => by cases e⟩
  | rdKafkaDestroy rk =>
      have hkept := brackets_truthful.kept (fun c => tableProg_brackets c false)
        (fun _ _ e => by cases e) (fun _ e => by cases e) h
      obtain ⟨m, hm, hin⟩ := hkept.needs ht
      obtain ⟨d₁, hsteps, hnil, -⟩ := reports_served (T := s.sh) (hin hm) hd
      have hstill : d₁.Still := by
        intro q hq
        rw [hnil] at hq
        cases hq
      exact ⟨d₁, hsteps, hstill.not_runsOn _, .ok, (), _, _, if_pos hnil, trivial⟩
  | pthreadJoin thr =>
      obtain ⟨d₁, hsteps, hexit, hstill⟩ := Tab.Told.exits (h.tells ht) h.inv hd
      refine ⟨d₁, hsteps, hstill.not_runsOn _, .ok, (),
        { s.sh with threads := s.sh.threads.free thr }, d₁, ?_, trivial⟩
      simp only [Op.act, hexit]
  | _ => exact hquick trivial

theorem Machine.Reachable.ready (h : s.Reachable) {t : Nat} {o : Op} (ht : s.next t = some o) :
    ∃ d₁, EnvBy iface manners s.sh s.fr d₁ ∧ manners.step t d₁ ∧
      ∃ a r T' d', o.act t a s.sh d₁ = some (r, T', d') ∧ Answered o r := by
  obtain ⟨sh, fr, lock, thr, hist⟩ := s
  obtain ⟨d₁, hsteps, hstill, -⟩ := callbacks_return sh fr
  have hm : Cfg.Moves iface tableProg manners t ⟨sh, fr, lock, thr, hist⟩ ⟨sh, d₁, lock, thr, hist⟩ :=
    .env hsteps
  have h₁ : Machine.Reachable ⟨sh, d₁, lock, thr, hist⟩ := Cfg.Reach.trans h hm.reach
  obtain ⟨d₂, hsteps', hready⟩ := h₁.ready_still hstill (t := t) (o := o) ht
  exact ⟨d₂, hsteps.trans hsteps', hready⟩

/-- **No session waits for another**, but for the lock. -/
theorem Machine.unblocked : Unblocked sharing manners Answered Tab.init Flow.init where
  good := Machine.good_initial
  able := tableProg_able
  settles T d t := by
    obtain ⟨d₁, hsteps, hstill, -⟩ := callbacks_return T d
    exact ⟨d₁, hsteps, hstill.not_runsOn _⟩
  ready h ht := Machine.Reachable.ready h ht

/-- **A session that holds the lock can let go of it**: it needs no other session to move. -/
theorem holder_lets_go (h : s.Reachable) (t : Nat) :
    ∃ ls s', Cfg.RunBy iface tableProg (fun s l => Proper s l ∧ l.Inside t) s ls s' ∧
      s'.lock.held t = .none ∧ ∀ u, u ≠ t → s'.thr u = s.thr u ∧ s'.lock.held u = s.lock.held u := by
  obtain ⟨s', hm, hfree⟩ := Machine.unblocked.lets_go h t
  obtain ⟨ls, hrun⟩ := hm.runBy
  exact ⟨ls, s', hrun.mono fun _ _ => And.imp_left proper_of_allows, hfree, (h.good.moves hm).2⟩

/-- **No deadlock.** -/
theorem no_deadlock (h : s.Reachable) :
    Disciplined s ∧ ∃ ls s', Cfg.RunBy iface tableProg Proper s ls s' ∧
      (∀ t, s'.thr t = none) ∧ s'.lock = .free := by
  obtain ⟨s', ⟨ls, hrun⟩, hidle, hfree⟩ := Machine.unblocked.comes_to_rest h
  exact ⟨h.good.disciplined, ls, s', hrun.mono fun _ _ => proper_of_allows, hidle, hfree⟩

end machine

/-! ### In the middle of a disconnect -/

/-- Session 0 is about to join the poll thread, holding the lock; a message of session 1 is queued,
and the poll thread waits in `rd_kafka_poll`. -/
def joining : List (Label Ans Ev TableCall) :=
  calling 0 (.connect (some (.lit "b"))) 20 ++ [.env (.pollCheck 0)] ++
    calling 0 (.create (some (.lit "t"))) 15 ++ calling 1 (.send (some (.lit "t")) [1]) 11 ++
    .start 0 .dismissAll :: List.replicate 12 (.step 0 .ok)

theorem joining_reachable : ∃ s : Machine, s.Reachable ∧ s.lock.held 0 = .wr ∧
    s.fr.inflight.length = 1 ∧ s.fr.phase 0 = .polling := by
  have hrun : (Cfg.run iface tableProg joining Machine.initial).map (fun s =>
      (s.lock.held 0, s.fr.inflight.length, s.fr.phase 0)) = some (.wr, 1, .polling) := by
    decide +kernel
  obtain ⟨s, hs, he⟩ := Option.map_eq_some_iff.mp hrun
  simp only [Prod.mk.injEq] at he
  exact ⟨s, Cfg.reach_of_run hs, he⟩

theorem joining_lets_go : ∃ s s' : Machine, s.lock.held 0 = .wr ∧ s'.lock.held 0 = .none := by
  obtain ⟨s, hs, hwr, -⟩ := joining_reachable
  obtain ⟨ls, s', -, hfree, -⟩ := holder_lets_go hs 0
  exact ⟨s, s', hwr, hfree⟩

theorem joining_comes_to_rest : ∃ s s' : Machine, s.lock.held 0 = .wr ∧ s.fr.inflight.length = 1 ∧
    (∀ t, s'.thr t = none) ∧ s'.lock = .free := by
  obtain ⟨s, hs, hwr, hlen, -⟩ := joining_reachable
  obtain ⟨-, ls, s', -, hidle, hfree⟩ := no_deadlock hs
  exact ⟨s, s', hwr, hlen, hidle, hfree⟩

end TrigEmit
