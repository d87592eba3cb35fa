import TrigEmitKafka.Rules.Rendering
import TrigEmitKafka.Rules.Turns

/-!
# Rules — sessions

`Sessions` is the module at the granularity of its critical sections: every session at its own
SQL function, each of its calls to the table run from start to end, and librdkafka and the poll
thread moving meanwhile.

A SQL function alone is a sequence of calls to the table; `session_call` takes the next one, with
its effect.
-/

namespace TrigEmit

open Conc (Cfg EnvSteps Item Prog exec exec_op)
open Conc.Logic (Allowed alone allowed_any)
open Slots (firstIdx_some mem_put mem_of_mem_swapRemove)

/-! ### What the environment keeps -/

theorem Inv.envSteps {T : Tab} {d d' : Flow} (hi : Inv T d)
    (h : EnvSteps tableIface T d d') : Inv T d' :=
  h.keeps (P := fun d => Inv T d) (fun he hi => Inv.env hi he) hi

theorem accepted_envSteps {T : Tab} {d d' : Flow} (h : EnvSteps tableIface T d d') :
    d'.accepted = d.accepted :=
  h.keeps (P := fun x => x.accepted = d.accepted) (fun he e => (Ev.act_messages he).2.trans e) rfl

/-! ### A SQL function alone -/

/-- The answers from outside in every course are of the kind `allows`. -/
def AllowedAll (allows : Ans → Prop) (courses : List (Item Course Ev)) : Prop :=
  ∀ c, Item.ans c ∈ courses → Allowed allows c

theorem allowedAll_any (courses : List (Item Course Ev)) :
    AllowedAll (fun _ => True) courses := fun c _ => allowed_any c

/-- **The next call of a SQL function alone** has its effect, from the world that is there to a
well-formed world. -/
theorem session_call {allows : Ans → Prop} {α : Type} {t : Nat} {c : TableCall}
    {k : c.Ret → Session α} {courses : List (Item Course Ev)} {T T' : Tab} {d d' : Flow} {r : α}
    {W : World} (hi : Inv T d) (hT : T.Is W.cells) (hW : W.Ok) (hok : AllowedAll allows courses)
    (he : exec tableIface t (table c >>= k) courses T d = some (r, T', d')) :
    ∃ d₁ x T₁ d₂ W₁ b₁ rest, d₁.accepted = d.accepted ∧ Inv T₁ d₂ ∧ T₁.Is W₁.cells ∧ W₁.Ok ∧
      b₁.Sees d₂ ∧ Effect (MayFail (alone allows)) c W (View.of t T d₁) x W₁ b₁ ∧
      AllowedAll allows rest ∧ exec tableIface t (k x) rest T₁ d₂ = some (r, T', d') := by
  obtain ⟨d₁, course, x, T₁, d₂, rest, hsteps, ha, hrest, hmem, hsub⟩ := exec_op he
  obtain ⟨hi₂, W₁, b₁, hT₁, hW₁, hb, -, heff⟩ :=
    exec_effect (hi.envSteps hsteps) hT hW (hok course hmem) ha
  exact ⟨d₁, x, T₁, d₂, W₁, b₁, rest, accepted_envSteps hsteps, hi₂, hT₁, hW₁, hb, heff,
    fun c hc => hok c (hsub _ hc), hrest⟩

/-! ### What a SQL function passes on -/

/-- A parameter is stored as `kafka_connection_param` accepts it. -/
def Passes : TableCall → Prop
  | .setParam (some n) (some v) => n.1.length ≤ maxSetupVarLen ∧ v.1.length ≤ maxSetupVarLen
  | _                           => True

theorem CStr.length_ofBytes (bs : List UInt8) : (CStr.ofBytes bs).1.length ≤ bs.length :=
  (List.takeWhile_prefix _).length_le

theorem length_terminated {limit : Nat} {arg : SqlArg} {s : CStr}
    (h : terminated limit arg = some s) : s.1.length ≤ limit := by
  cases arg with
  | none => cases h
  | some bs =>
      simp only [terminated] at h
      split at h
      · cases h
      · rename_i hlen
        rw [localCopy_eq (by omega)] at h
        cases h
        have := CStr.length_ofBytes bs
        omega

theorem sendMessage_passes (topic : CStr) (data : List UInt8) :
    (sendMessage topic data).Straight Passes :=
  .op trivial fun sent => by split <;> exact .pure

/-- The SQL functions make finitely many calls, and pass on what the table stores. -/
theorem commandProg_passes (package : PackageString) (c : Command) :
    (commandProg package c).Straight Passes := by
  cases c with
  | connect brokers =>
      simp only [commandProg, kafkaConnect]
      split
      · exact .pure
      · exact .op trivial fun r => by split <;> exact .pure
  | connectionParam name value =>
      simp only [commandProg, kafkaConnectionParam]
      split
      · exact .pure
      · rename_i n hn
        split
        · exact .op trivial fun r => by split <;> exact .pure
        · split
          · exact .pure
          · rename_i bs hlen
            have hv := CStr.length_ofBytes bs
            rw [localCopy_eq (by omega)]
            exact .op ⟨length_terminated hn, by omega⟩ fun r => by split <;> exact .pure
  | disconnect topic =>
      cases topic with
      | none => exact .op trivial fun _ => .pure
      | some topic =>
          simp only [commandProg, kafkaDisconnect]
          split
          · exact .pure
          · exact .op trivial fun r => by split <;> exact .pure
  | send topic msg =>
      simp only [commandProg, kafkaSend]
      split
      · refine .op trivial fun found => ?_
        split
        · exact sendMessage_passes _ _
        · refine .op trivial fun created => ?_
          split
          · exact .pure
          · exact sendMessage_passes _ _
      · exact .pure
  | stats topic => exact .op trivial fun _ => .pure
  | info => exact .op trivial fun _ => .op trivial fun _ => .pure

/-! ### Every session at once -/

/-- A state of the module and its sessions. -/
abbrev Sessions := Cfg Tab Flow TableCall TableCall.Ret Command Command.Ret

/-- Nothing was called yet. -/
def Sessions.initial : Sessions := Cfg.init Tab.init Flow.init

/-- A state some run comes to. -/
abbrev Sessions.Reachable (package : PackageString) (s : Sessions) : Prop :=
  Cfg.Reach tableIface (commandProg package) Sessions.initial s

/-- The table is a well-formed world between any two calls. -/
theorem Sessions.Reachable.world {package : PackageString} {s : Sessions}
    (h : s.Reachable package) : Inv s.sh s.fr ∧ TableInv s.sh := by
  refine h.keeps (P := fun T d => Inv T d ∧ TableInv T) ?_ ?_
    ⟨inv_init, World.init, World.ok_init, World.is_init⟩
  · rintro t c course T d r T' d' ha ⟨hi, W, hW, hT⟩
    obtain ⟨hi', W', b', hT', hW', -⟩ := exec_effect hi hT hW (allowed_any course) ha
    exact ⟨hi', W', hW', hT'⟩
  · rintro e T d d' he ⟨hi, hT⟩
    exact ⟨hi.env he, hT⟩

/-- The state of the table in it. -/
def Sessions.Reachable.state {package : PackageString} {s : Sessions} (h : s.Reachable package) :
    TableState :=
  ⟨s.sh, s.fr, h.world.1, h.world.2⟩

/-- A call that passes on what may be stored leaves storable parameters. -/
theorem Effect.storable {W W' : World} {b b' : View} {F : Prop} {c : TableCall} {r : c.Ret}
    (he : Effect F c W b r W' b') (hc : Passes c) (hs : Storable W.obs.params) :
    Storable W'.obs.params := by
  cases c with
  | setParam name value =>
      by_cases hr : r = .ok ()
      · obtain ⟨n, v, rfl, rfl, -, hset⟩ := he.2.1 hr
        obtain ⟨-, ho⟩ := hset.ok hr
        rw [ho]
        intro x hx
        rcases mem_put hx with rfl | hx
        · exact hc
        · exact hs x hx
      · rw [(he.2.2 hr).1.obs]
        exact hs
  | unsetParam name =>
      obtain ⟨-, ⟨n, -, -, hu⟩ | ⟨-, -, rfl⟩⟩ := he
      · by_cases hr : r = 0
        · obtain ⟨-, i, v, hf, ho⟩ := hu.ok hr
          have hi := (firstIdx_some hf).2.1
          rw [ho]
          exact fun x hx => hs x (mem_of_mem_swapRemove (List.getElem?_eq_some_iff.mp hi).1 hx)
        · rw [(hu.fail hr).2.1.obs]
          exact hs
      · exact hs
  | _ => rw [he.params (fun h => h)]; exact hs

/-- Sessions store only what may be stored. -/
theorem Sessions.Reachable.storable {package : PackageString} {s : Sessions}
    (h : s.Reachable package) : Storable s.sh.seen.params := by
  have hkeeps := h.keeps_straight (A := Passes)
    (P := fun T d => Inv T d ∧ TableInv T ∧ Storable T.seen.params) (commandProg_passes package)
    ?_ ?_ ⟨inv_init, ⟨World.init, World.ok_init, World.is_init⟩, fun p hp => by cases hp⟩
  · exact hkeeps.1.2.2
  · rintro t c course T d r T' d' hc ha ⟨hi, ⟨W, hW, hT⟩, hs⟩
    obtain ⟨hi', W', b', hT', hW', -, -, heff⟩ := exec_effect hi hT hW (allowed_any course) ha
    refine ⟨hi', ⟨W', hW', hT'⟩, ?_⟩
    rw [hT'.seen]
    exact heff.storable hc (by rw [hT.seen] at hs; exact hs)
  · rintro e T d d' he ⟨hi, hT, hs⟩
    exact ⟨hi.env he, hT, hs⟩

/-! ### Concrete runs -/

/-- Outside answers to `n` operations of a call, nothing failing. -/
def quietly (n : Nat) : Course := List.replicate n (.ans .ok)

theorem allowed_quietly {allows : Ans → Prop} (h : allows .ok) (n : Nat) :
    Allowed allows (quietly n) := by
  intro a ha
  obtain rfl := Item.ans.inj (List.eq_of_mem_replicate ha)
  exact h

def somePackage : PackageString := ⟨.lit "trigemit 1.0", by decide⟩

/-- A SQL function of session `t`, from start to end. -/
def running (t : Nat) (c : Command) (courses : List Course) : List (Conc.Label Course Ev Command) :=
  .start t c :: courses.map (.step t) ++ [.finish t]

end TrigEmit
