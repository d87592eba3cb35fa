import TrigEmitKafka.Results.Info
import TrigEmitKafka.Results.Failures
import TrigEmitKafka.Support.Settings

/-!
# Results — the configuration of the producer

What `rd_kafka_new` is handed is a list of settings, of which the last one of a property counts; a
property may have several names (`canon`).

* `last_set_wins`: in a run where no stored parameter moves past another name of its property, a
  connect hands over the value each property was given last.
* `settingAgain_value`: a run in which another value is handed over.
* `brokers_shown`: the broker list that is shown is the argument of the connect that built the
  producer, and `bootstrap.servers` has that value in the producer's configuration unless a stored
  parameter names it.
-/

namespace TrigEmit

open Conc (Returns exec)
open Conc.Logic (allowed_any)
open Settings (lastSet lastSet_append lastSet_eq_none_iff Alike PutKeeps RemoveKeeps alike_put
  alike_swapRemove renew forget)
open Slots (firstIdx_some)

/-- The value of a property in a configuration. -/
def Conf.value {α : Type} [DecidableEq α] (canon : CStr → α) (conf : Conf) (q : α) : Option CStr :=
  lastSet canon q conf.sets

/-! ### The broker list -/

/-- `bootstrap.servers` -/
def bootstrapServers : CStr := .lit "bootstrap.servers"

/-- The broker list in use after a call, where it was `acc` before. -/
def Finished.brokers (acc : Option CStr) : Finished → Option CStr
  | ⟨_, .connect (some bs), .ok _⟩ => some bs
  | ⟨_, .dismissAll, _⟩            => none
  | _                              => acc

/-- The argument of the connect that built the producer there is. -/
def lastConnect (hs : List Finished) : Option CStr := hs.foldl Finished.brokers none

/-- The broker list after a call. -/
theorem Effect.brokers {W W' : World} {b b' : View} {F : Prop} {t : Nat} {c : TableCall} {r : c.Ret}
    (he : Effect F c W b r W' b') :
    W'.obs.seen.brokers = Finished.brokers W.obs.seen.brokers ⟨t, c, r⟩ := by
  cases c with
  | connect brokers =>
      cases r with
      | error text =>
          rw [(he.2.2.1 fun e => by cases e).1.obs]
          cases brokers <;> rfl
      | ok u =>
          obtain ⟨bs, rfl, -, hconn⟩ := he.2.1 rfl
          obtain ⟨-, -, p, rfl, -, ho⟩ := hconn.ok rfl
          rw [ho]
          rfl
  | dismissAll =>
      rw [he.2.1]
      rfl
  | setParam name value =>
      by_cases hr : r = .ok ()
      · obtain ⟨n, v, rfl, rfl, -, hset⟩ := he.2.1 hr
        rw [(hset.ok hr).2]
        rfl
      · rw [(he.2.2 hr).1.obs]
        rfl
  | create topic =>
      by_cases hr : r = 0
      · obtain ⟨n, -, ⟨-, ho⟩ | ⟨-, -, -, reg, -, -, ho⟩⟩ := he.2.1.ok hr
        · rw [ho]; rfl
        · rw [ho]; rfl
      · rw [(he.2.1.fail hr).2.1.obs]
        rfl
  | dismiss topic =>
      obtain ⟨-, ⟨n, -, -, hd⟩ | ⟨-, -, rfl⟩⟩ := he
      · by_cases hr : r = 0
        · obtain ⟨i, reg, -, ho⟩ := hd.ok hr
          rw [ho]; rfl
        · rw [(hd.fail hr).2.1.obs]; rfl
      · rfl
  | unsetParam name =>
      obtain ⟨-, ⟨n, -, -, hu⟩ | ⟨-, -, rfl⟩⟩ := he
      · by_cases hr : r = 0
        · obtain ⟨-, i, x, -, ho⟩ := hu.ok hr
          rw [ho]; rfl
        · rw [(hu.fail hr).2.1.obs]; rfl
      · rfl
  | connected => rw [he.1]; rfl
  | validateParam name value => rw [he.1]; rfl
  | getBrokers buflen => rw [he.1]; rfl
  | describeParams buflen => rw [he.1]; rfl
  | «exists» topic => rw [he.1]; rfl
  | send topic data => rw [he.1]; rfl
  | getStats topic => rw [he.1]; rfl

/-- **The broker list in use** is that of the last connect. -/
theorem FromLoad.brokers {hs : List Finished} {T : Tab} {d : Flow}
    (h : FromLoad (fun _ => True) hs T d) : T.seen.brokers = lastConnect hs := by
  generalize hT₀ : Tab.init = T₀ at h
  generalize hd₀ : Flow.init = d₀ at h
  induction h with
  | nil => subst hT₀; rfl
  | env e _ _ ih => exact ih
  | @call hs T₁ T₂ d₁ d₂ t c r course hrun hok he ih =>
      subst hT₀ hd₀
      obtain ⟨hi, W, hW, hT⟩ := FromLoad.world hrun
      obtain ⟨-, W', b', hT', -, -, -, heff⟩ := exec_effect hi hT hW hok he
      rw [hT'.seen, heff.brokers (t := t), ← hT.seen, ih, lastConnect, lastConnect, List.foldl_append]
      rfl

/-- The producer there is runs on the defaults for its broker list and the stored parameters. -/
theorem TableState.runs (s : TableState) {bs : CStr} (h : s.seen.brokers = some bs) :
    s.sh.Runs ⟨producerDefaults bs ++ s.seen.params, true⟩ := by
  obtain ⟨W, hW, hT⟩ := s.world
  rw [TableState.seen, hT.seen] at h ⊢
  obtain ⟨p, hp, rfl⟩ := Option.map_eq_some_iff.mp h
  have hruns := hT.runs hp
  obtain ⟨conn, hc, rfl⟩ := Option.map_eq_some_iff.mp hp
  rw [(hW.conn conn hc).conf] at hruns
  exact hruns

/-- The last setting of `bootstrap.servers` is a stored parameter's, or else the default. -/
theorem value_bootstrapServers {α : Type} [DecidableEq α] {canon : CStr → α} {bs : CStr}
    (hdef : ∀ x ∈ (producerDefaults bs).tail, canon x.1 ≠ canon bootstrapServers)
    (params : List (CStr × CStr)) :
    Conf.value canon ⟨producerDefaults bs ++ params, true⟩ (canon bootstrapServers) =
      some ((lastSet canon (canon bootstrapServers) params).getD bs) := by
  have hone : lastSet canon (canon bootstrapServers) (producerDefaults bs) = some bs := by
    have htail := lastSet_eq_none_iff.mpr hdef
    rw [producerDefaults, List.tail_cons] at htail
    rw [producerDefaults, lastSet, htail]
    exact if_pos rfl
  rw [Conf.value, lastSet_append, hone]
  cases lastSet canon (canon bootstrapServers) params <;> rfl

/-- What is shown of the broker list, and what is used, where `bs` was given to the connect. -/
structure BrokersShown (s : TableState) (bs : CStr) : Prop where
  /-- `kafka_table_get_brokers` copies out the argument. -/
  copied : ∀ t buflen, 1 ≤ buflen →
    Returns iface t (tableProg (.getBrokers buflen)) s.sh s.fr (1, bs.1.take (buflen - 1))
  /-- `kafka_info` shows it. -/
  shown : ∀ t package, ∃ n params length, Returns tableIface t (kafkaInfo package) s.sh s.fr
    ((infoText package (bs.1.take maxSetupVarLen) n params).take (infoMaxLen - 1), length)
  /-- The producer's `bootstrap.servers` is what the last stored parameter that names it says, and
  the argument if none does; `canon` says which property a name is one of. -/
  used : ∀ {α : Type} [DecidableEq α] (canon : CStr → α),
    (∀ x ∈ (producerDefaults bs).tail, canon x.1 ≠ canon bootstrapServers) →
    ∃ conf, s.sh.Runs conf ∧ conf.value canon (canon bootstrapServers) =
      some ((lastSet canon (canon bootstrapServers) s.seen.params).getD bs)
  /-- So the two agree unless a stored parameter names it. -/
  agree : ∀ {α : Type} [DecidableEq α] (canon : CStr → α),
    (∀ x ∈ (producerDefaults bs).tail, canon x.1 ≠ canon bootstrapServers) →
    (∀ x ∈ s.seen.params, canon x.1 ≠ canon bootstrapServers) →
    ∃ conf, s.sh.Runs conf ∧ conf.value canon (canon bootstrapServers) = some bs

/-- A connected table has a broker list. -/
theorem TableState.brokers_isSome (s : TableState) (h : s.seen.connected = true) :
    ∃ bs, s.seen.brokers = some bs := by
  obtain ⟨W, hW, hT⟩ := s.world
  rw [TableState.seen, hT.seen] at h ⊢
  obtain ⟨p, hp⟩ := Option.isSome_iff_exists.mp h
  exact ⟨p.brokers.val, by rw [Obs.seen, hp]; rfl⟩

/-- **The brokers reported** are the argument of the connect that built the producer; the brokers
used are that, unless a parameter overrides it. -/
theorem brokers_shown {hs : List Finished} {T : Tab} {d : Flow}
    (h : FromLoad (fun _ => True) hs T d) (hconn : T.seen.connected = true) :
    ∃ bs, lastConnect hs = some bs ∧ BrokersShown h.state bs := by
  obtain ⟨bs, hseen⟩ := h.state.brokers_isSome hconn
  have hruns := h.state.runs hseen
  refine ⟨bs, h.brokers.symm.trans hseen, fun t buflen hb => ?_, fun t package => ?_,
    fun canon hdef => ?_, fun canon hdef hnone => ?_⟩
  · have hret := getBrokers_returns h.state t buflen
    rwa [Seen.getBrokers, if_neg (by omega), hseen] at hret
  · have hret := kafkaInfo_returns h.state t package
    rw [Seen.info, Seen.brokerLine, hseen] at hret
    exact ⟨_, _, _, hret⟩
  · exact ⟨_, hruns, value_bootstrapServers hdef _⟩
  · refine ⟨_, hruns, ?_⟩
    rw [value_bootstrapServers hdef, lastSet_eq_none_iff.mpr hnone]
    rfl

/-- `bootstrap.servers` is set to "a", and "b" is connected to. -/
def overriding : List (Nat × TableCall × Course) :=
  [(0, .setParam (some bootstrapServers) (some (.lit "a")), quietly 11),
   (0, .connect (some (.lit "b")), quietly 24)]

/-- What can be seen then. -/
theorem overriding_seen : ∃ hs T d, FromLoad (fun _ => True) hs T d ∧
    T.seen = ⟨true, some (.lit "b"), [(bootstrapServers, .lit "a")], []⟩ := by
  have hrun : (replay overriding Tab.init Flow.init).map (fun x => x.2.1.seen) =
      some ⟨true, some (.lit "b"), [(bootstrapServers, .lit "a")], []⟩ := by
    decide +kernel
  obtain ⟨⟨hs, T, d⟩, hx, hseen⟩ := Option.map_eq_some_iff.mp hrun
  exact ⟨hs, T, d, runs_of_replay (fun x _ => allowed_any x.2.2) hx, hseen⟩

/-- The brokers shown there are those of the connect. -/
theorem overriding_shown : ∃ hs T d, ∃ h : FromLoad (fun _ => True) hs T d,
    ∃ bs, lastConnect hs = some bs ∧ BrokersShown h.state bs := by
  obtain ⟨hs, T, d, h, hseen⟩ := overriding_seen
  exact ⟨hs, T, d, h, brokers_shown h (by rw [hseen])⟩

/-- The producer uses other brokers than are shown. -/
theorem overriding_brokers : ∃ hs T d, FromLoad (fun _ => True) hs T d ∧
    T.seen.brokers = some (.lit "b") ∧
      ∃ conf, T.Runs conf ∧ conf.value id bootstrapServers = some (.lit "a") := by
  obtain ⟨hs, T, d, h, hseen⟩ := overriding_seen
  have hbs : T.seen.brokers = some (.lit "b") := by rw [hseen]
  refine ⟨hs, T, d, h, hbs, _, h.state.runs hbs, ?_⟩
  rw [TableState.seen, show h.state.sh = T from rfl, hseen]
  decide

/-! ### In the order of the settings -/

/-- The parameters set and not unset since, in the order they were set last; `acc` before the
call. -/
def Finished.recent (acc : List (CStr × CStr)) : Finished → List (CStr × CStr)
  | ⟨_, .setParam (some n) (some v), .ok _⟩ => renew n v acc
  | ⟨_, .unsetParam (some n), r⟩            => if r = 0 then forget n acc else acc
  | _                                       => acc

def recent (hs : List Finished) : List (CStr × CStr) := hs.foldl Finished.recent []

/-- Nothing the call moves in the array moves past another name of its property. -/
def KeepsOrder {α : Type} (canon : CStr → α) (s : Seen) : TableCall → Prop
  | .setParam (some n) _ => s.connected = false → PutKeeps canon n s.params
  | .unsetParam (some n) => s.connected = false → RemoveKeeps canon n s.params
  | _                    => True

instance {α : Type} [DecidableEq α] (canon : CStr → α) (s : Seen) :
    (c : TableCall) → Decidable (KeepsOrder canon s c)
  | .setParam (some n) _ =>
      inferInstanceAs (Decidable (s.connected = false → PutKeeps canon n s.params))
  | .unsetParam (some n) =>
      inferInstanceAs (Decidable (s.connected = false → RemoveKeeps canon n s.params))
  | .setParam none _ | .unsetParam none | .connected | .validateParam _ _ | .connect _
  | .getBrokers _ | .describeParams _ | .exists _ | .create _ | .send _ _ | .dismiss _ | .dismissAll
  | .getStats _ => inferInstanceAs (Decidable True)

/-- A run from the state the module is loaded in, whose every call is made in a state that meets
`C`. -/
inductive RunsMeeting (C : Tab → TableCall → Prop) : List Finished → Tab → Flow → Prop where
  | nil : RunsMeeting C [] Tab.init Flow.init
  | call {hs : List Finished} {T T' : Tab} {d d' : Flow} {t : Nat} {c : TableCall} {r : c.Ret}
      (course : Course) : RunsMeeting C hs T d → C T c →
      exec iface t (tableProg c) course T d = some (r, T', d') →
      RunsMeeting C (hs ++ [⟨t, c, r⟩]) T' d'
  | env {hs : List Finished} {T : Tab} {d d' : Flow} (e : Ev) : RunsMeeting C hs T d →
      e.act T d = some d' → RunsMeeting C hs T d'

theorem RunsMeeting.fromLoad {C : Tab → TableCall → Prop} {hs : List Finished} {T : Tab} {d : Flow}
    (h : RunsMeeting C hs T d) : FromLoad (fun _ => True) hs T d := by
  induction h with
  | nil => exact .nil
  | call course _ _ he ih => exact .call course ih (allowed_any course) he
  | env e _ he ih => exact .env e ih he

section order

variable {α : Type} [DecidableEq α] {canon : CStr → α}

/-- A call that keeps the order keeps up with the order of the settings. -/
theorem Effect.alike {W W' : World} {b b' : View} {F : Prop} {t : Nat} {c : TableCall} {r : c.Ret}
    {l : List (CStr × CStr)} (he : Effect F c W b r W' b') (hW : W.Ok)
    (hc : KeepsOrder canon W.obs.seen c) (h : Alike canon W.obs.params l) :
    Alike canon W'.obs.params (Finished.recent l ⟨t, c, r⟩) := by
  have hnames : (W.obs.params.map Prod.fst).Nodup := by
    have h := hW.names
    rwa [show W.obs.params.map Prod.fst = W.params.items.map fun p => p.name.val by
      simp [World.obs, Function.comp_def]]
  cases c with
  | setParam name value =>
      cases r with
      | error text =>
          rw [(he.2.2 fun e => by cases e).1.obs]
          cases name <;> cases value <;> exact h
      | ok u =>
          obtain ⟨n, v, rfl, rfl, -, hset⟩ := he.2.1 rfl
          obtain ⟨hconn, ho⟩ := hset.ok rfl
          rw [ho]
          exact alike_put hnames h (hc (World.obs_disconnected hconn).1) v
  | unsetParam name =>
      obtain ⟨-, ⟨n, rfl, -, hu⟩ | ⟨hz, rfl, rfl⟩⟩ := he
      · by_cases hr : r = 0
        · obtain ⟨hconn, i, ⟨k, w⟩, hf, ho⟩ := hu.ok hr
          obtain ⟨-, hi, hk⟩ := firstIdx_some hf
          obtain rfl : k = n := by simpa using hk
          rw [ho, Finished.recent, if_pos hr]
          exact alike_swapRemove hnames h (hc (World.obs_disconnected hconn).1) hi
        · rw [(hu.fail hr).2.1.obs, Finished.recent, if_neg hr]
          exact h
      · cases name with
        | none => exact h
        | some n => rw [Finished.recent, if_neg (show ¬ (-1 : Int) = 0 by decide)]; exact h
  | _ =>
      rw [he.params fun h => h]
      exact h

/-- The stored parameters are in the order of the settings, within each property. -/
theorem RunsMeeting.alike {hs : List Finished} {T : Tab} {d : Flow}
    (h : RunsMeeting (fun T c => KeepsOrder canon T.seen c) hs T d) :
    Alike canon T.seen.params (recent hs) := by
  induction h with
  | nil => exact fun q => rfl
  | env e _ _ ih => exact ih
  | @call hs T T' d d' t c r course hrun hc he ih =>
      obtain ⟨hi, W, hW, hT⟩ := FromLoad.world hrun.fromLoad
      obtain ⟨-, W', b', hT', -, -, -, heff⟩ := exec_effect hi hT hW (allowed_any course) he
      rw [hT.seen] at hc ih
      rw [hT'.seen, recent, List.foldl_append]
      exact heff.alike hW hc ih

/-- **The last setting wins**, in a run that keeps the order: what a connect hands to `rd_kafka_new`
has for each property what it was set to last and not unset since, or else the default. -/
theorem last_set_wins {hs : List Finished} {T : Tab} {d : Flow}
    (h : RunsMeeting (fun T c => KeepsOrder canon T.seen c) hs T d) {t : Nat} {bs : CStr}
    {course : Course} {r : Except String Unit} {T' : Tab} {d' : Flow}
    (he : exec iface t (tableProg (.connect (some bs))) course T d = some (r, T', d')) :
    (r = .ok () → ∃ conf, T'.handed = T.handed ++ [conf]) ∧
    ∀ conf, T'.handed = T.handed ++ [conf] → ∀ q, conf.value canon q =
      (lastSet canon q (recent hs)).or (lastSet canon q (producerDefaults bs)) := by
  obtain ⟨hi, W, hW, hT⟩ := FromLoad.world h.fromLoad
  obtain ⟨-, W', b', hT', -, -, -, -, hok, -, hhand⟩ :=
    exec_effect hi hT hW (allowed_any course) he
  have hpast : T.handed = W.handed := hT.handed
  have hnow : T'.handed = W'.handed := hT'.handed
  rw [hpast, hnow]
  refine ⟨fun hr => ?_, fun conf hconf q => ?_⟩
  · obtain ⟨bs', -, -, hconn⟩ := hok hr
    exact ⟨_, (hconn.ok hr).2.1⟩
  · rcases hhand with e | ⟨bs', e', e⟩
    · rw [e] at hconf
      exact absurd (congrArg List.length hconf) (by simp)
    · cases e'
      obtain rfl : applied bs W.params.items = conf := by
        simpa using List.append_cancel_left (e.symm.trans hconf)
      have hsets : (applied bs W.params.items).sets = producerDefaults bs ++ T.seen.params := by
        rw [hT.seen]
        rfl
      rw [Conf.value, hsets, lastSet_append, h.alike.lastSet q]

end order

/-! ### Two names of one property -/

def linger : CStr := .lit "linger.ms"

def queueBuffering : CStr := .lit "queue.buffering.max.ms"

/-- The one is an alias of the other. -/
def lingerAlias (n : CStr) : CStr := if n = linger then queueBuffering else n

/-- Each call of a list is made in a state that meets `C`. -/
def meets (C : Tab → TableCall → Bool) : List (Nat × TableCall × Course) → Tab → Flow → Bool
  | [],                     _, _ => true
  | (t, c, course) :: rest, T, d => C T c &&
      (exec iface t (tableProg c) course T d).all fun x => meets C rest x.2.1 x.2.2

theorem runsMeeting_of_replay {C : Tab → TableCall → Prop} [∀ T c, Decidable (C T c)]
    {calls : List (Nat × TableCall × Course)} {hs hs' : List Finished} {T T' : Tab} {d d' : Flow}
    (hrun : RunsMeeting C hs T d) (h : replay calls T d = some (hs', T', d'))
    (hm : meets (fun T c => decide (C T c)) calls T d = true) : RunsMeeting C (hs ++ hs') T' d' := by
  induction calls generalizing hs hs' T d with
  | nil =>
      cases h
      rwa [List.append_nil]
  | cons x calls ih =>
      obtain ⟨t, c, course⟩ := x
      obtain ⟨⟨r, T₁, d₁⟩, he, h⟩ := Option.bind_eq_some_iff.mp h
      obtain ⟨⟨hs₁, T₂, d₂⟩, hrest, e⟩ := Option.map_eq_some_iff.mp h
      cases e
      rw [meets, he, Bool.and_eq_true, decide_eq_true_eq] at hm
      have hrun₁ := ih (hrun.call course hm.1 he) hrest hm.2
      rwa [List.append_assoc] at hrun₁

/-- A setting that is forgotten uncovers the one before it. -/
def uncovering : List (Nat × TableCall × Course) :=
  [(0, .setParam (some queueBuffering) (some (.lit "1")), quietly 11),
   (0, .setParam (some linger) (some (.lit "2")), quietly 11),
   (0, .unsetParam (some linger), quietly 8)]

/-- The one before it is handed over. -/
theorem uncovering_value : ∃ hs T d, RunsMeeting (fun T c => KeepsOrder lingerAlias T.seen c) hs T d ∧
    ∃ course r T' d' conf,
      exec iface 0 (tableProg (.connect (some (.lit "b")))) course T d = some (r, T', d') ∧
      T'.handed = T.handed ++ [conf] ∧ conf.value lingerAlias queueBuffering = some (.lit "1") := by
  have hrun : ((replay uncovering Tab.init Flow.init).bind fun x =>
      (exec iface 0 (tableProg (.connect (some (.lit "b")))) (quietly 24) x.2.1 x.2.2).map fun y =>
        (x.2.1.handed, y.2.1.handed.length)) = some ([], 1) := by
    decide +kernel
  have hlast : (replay uncovering Tab.init Flow.init).map (fun x => recent x.1) =
      some [(queueBuffering, .lit "1")] := by
    decide +kernel
  have hmeets : meets (fun T c => decide (KeepsOrder lingerAlias T.seen c)) uncovering
      Tab.init Flow.init = true := by
    decide +kernel
  obtain ⟨⟨hs, T, d⟩, hreplay, hrun⟩ := Option.bind_eq_some_iff.mp hrun
  obtain ⟨⟨r, T', d'⟩, he, hx⟩ := Option.map_eq_some_iff.mp hrun
  obtain ⟨hpast, hone⟩ := Prod.mk.inj hx
  rw [hreplay] at hlast
  have hrecent : recent hs = [(queueBuffering, .lit "1")] := Option.some.inj hlast
  obtain ⟨conf, hconf⟩ := List.length_eq_one_iff.mp hone
  have hmeeting := runsMeeting_of_replay (C := fun T c => KeepsOrder lingerAlias T.seen c) .nil
    hreplay hmeets
  have hhanded : T'.handed = T.handed ++ [conf] := by rw [hpast, hconf]; rfl
  refine ⟨_, T, d, hmeeting, _, r, T', d', conf, he, hhanded, ?_⟩
  rw [(last_set_wins hmeeting he).2 conf hhanded, List.nil_append, hrecent]
  decide

/-- The older of two names of a property is set again. -/
def settingAgain : List (Nat × TableCall × Course) :=
  [(0, .setParam (some linger) (some (.lit "1")), quietly 11),
   (0, .setParam (some queueBuffering) (some (.lit "2")), quietly 11),
   (0, .setParam (some linger) (some (.lit "3")), quietly 10)]

/-- **The older setting wins**, where a parameter is replaced in place. -/
theorem settingAgain_value : ∃ hs T d, FromLoad (fun _ => True) hs T d ∧
    lastSet lingerAlias queueBuffering (recent hs) = some (.lit "3") ∧
    ∃ course r T' d' conf,
      exec iface 0 (tableProg (.connect (some (.lit "b")))) course T d = some (r, T', d') ∧
      T'.handed = T.handed ++ [conf] ∧ conf.value lingerAlias queueBuffering = some (.lit "2") := by
  have hrun : ((replay settingAgain Tab.init Flow.init).bind fun x =>
      (exec iface 0 (tableProg (.connect (some (.lit "b")))) (quietly 28) x.2.1 x.2.2).map fun y =>
        (x.2.1.handed, y.2.1.handed.map fun c => c.value lingerAlias queueBuffering)) =
          some ([], [some (.lit "2")]) := by
    decide +kernel
  have hlast : (replay settingAgain Tab.init Flow.init).map (fun x =>
      lastSet lingerAlias queueBuffering (recent x.1)) = some (some (.lit "3")) := by
    decide +kernel
  obtain ⟨⟨hs, T, d⟩, hreplay, hrun⟩ := Option.bind_eq_some_iff.mp hrun
  obtain ⟨⟨r, T', d'⟩, he, hx⟩ := Option.map_eq_some_iff.mp hrun
  obtain ⟨hpast, hnow⟩ := Prod.mk.inj hx
  rw [hreplay] at hlast
  have hrecent : lastSet lingerAlias queueBuffering (recent hs) = some (.lit "3") :=
    Option.some.inj hlast
  obtain ⟨conf, hconf, hvalue⟩ := List.map_eq_singleton_iff.mp hnow
  exact ⟨hs, T, d, runs_of_replay (fun x _ => allowed_any x.2.2) hreplay, hrecent, _, r, T', d', conf, he,
    by rw [hpast, hconf]; rfl, hvalue⟩

end TrigEmit
