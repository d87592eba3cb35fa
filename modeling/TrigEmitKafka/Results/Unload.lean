import TrigEmitKafka.Results.Lifecycle
import TrigEmitKafka.Results.Polling

/-!
# Results — unloading the module

The server unloads the module once no session uses it; its destructor runs `kafka_table_shutdown`.
What librdkafka would call after that is code that is gone.

* `unload_silent`: from every state in which no session is at work `kafka_table_shutdown` can return,
  and when it has, there is neither a poll thread nor an instance, librdkafka can take no step any
  more, and every message ever accepted has been reported once.
-/

namespace TrigEmit

open Conc (Cfg Label LProg Mode Prog exec exec_bind)
open Conc.Logic (alone allowed_any exec_ends exec_keeps_valid exec_safe)
section

variable {T T' : Tab} {d d' : Flow} {t : Nat}

/-- **`kafka_table_shutdown` run alone** leaves nothing that runs, and loses no message. -/
theorem silent_of_shutdown (hi : Inv T d) (hT : TableInv T) (hh : Backed T d)
    {items : List (Conc.Item Ans Ev)}
    (he : exec iface t kafkaTableShutdown items T d = some ((), T', d')) :
    Silent T' d' ∧ d'.accepted = d.accepted := by
  obtain ⟨W, hW, hT⟩ := hT
  have hsafe : logic.Safe (alone fun _ => True) kafkaTableShutdown ⟨.none, T, View.of t T d⟩ _ :=
    kafkaTableShutdown_alone (At.of t .none hT) hW
  obtain ⟨hi', b, -, hsees, W', b', hm, hb, hconn, -, -⟩ :=
    exec_safe (L := logic) (b := View.of t T d) hi (Eq.refl (d.scratch t)) (View.sees_of t hi) hsafe
      (allowed_any items) he
  have hh' : Backed T' d' :=
    exec_keeps_valid (L := logic) (b := View.of t T d) (fun hv ha h => Backed.act h hv ha)
      (fun he h => Backed.env h he) hi (Eq.refl (d.scratch t)) (View.sees_of t hi) hsafe
      (allowed_any items) he hh
  have hacc : d'.accepted = b.acc := hsees.acc
  refine ⟨silent_of_world hi' hm.sh hconn hh', ?_⟩
  rw [hacc, show b = b' from hm.view, hb.acc]
  rfl

theorem clearParams_straight : (writing kafkaTableClearParamsLocked).Straight Op.Quick := by
  refine straight_writing (.op trivial fun kt => ?_)
  have hfree : LProg.Straight Op.Quick (Prog.forEach freeParam kt.params.items) :=
    Prog.Straight.forEach (fun p => LProg.Straight.op trivial fun _ => .call trivial) _
  refine hfree.bind fun _ => LProg.Straight.bind ?_ fun _ => .call trivial
  cases kt.params.ptr with
  | none => exact .pure
  | some p => exact .call trivial

/-- Without a connection the parameters can be cleared. -/
theorem clearParams_ends {W : World} {b : View} {m : Mode Tab View} (hm : At .none W.cells b m)
    (hc : W.conn = none) :
    logic.Safe (alone fun _ => True) (writing kafkaTableClearParamsLocked) m
      fun _ m' => m'.held = .none := by
  have hsafe := alone_writing (P := fun _ _ => True) hm fun m₁ hm₁ =>
    (kafkaTableClearParamsLocked_spec (S := alone fun _ => True) hm₁ hc).mono fun _ m₂ hm₂ =>
      ⟨_, b, hm₂, World.ok_withParams hc (CArray.ok_null _) List.nodup_nil
        (fun p hp => by cases hp), .refl b, trivial⟩
  refine hsafe.mono ?_
  rintro _ m' ⟨W', b', hm', -⟩
  exact hm'.held

end

/-- `kafka_table_shutdown` can return. -/
theorem Machine.Reachable.shuts_down {s : Machine} (h : s.Reachable) (hidle : ∀ t, s.thr t = none)
    (t : Nat) : ∃ items T' d', exec iface t kafkaTableShutdown items s.sh s.fr = some ((), T', d') := by
  obtain ⟨is, ⟨r, T₁, d₁⟩, hall⟩ := Machine.unblocked.runs_alone h hidle t .dismissAll
  obtain ⟨W, hW, hT⟩ := h.world (h.noWriter hidle)
  obtain ⟨hi₁, W₁, b₁, hT₁, hW₁, -, -, -, hobs, -⟩ := exec_effect h.inv hT hW (allowed_any is) hall
  have hconn : W₁.conn = none := Option.map_eq_none_iff.mp (congrArg Obs.producer hobs)
  have hclear := clearParams_ends (At.of (d := d₁) t .none hT₁) hconn
  obtain ⟨is', ⟨u, T', d'⟩, -, he⟩ := exec_ends (L := logic) (b := View.of t T₁ d₁)
    (a := .fail 0 "") trivial (fun ho hv => ho.ready hv) hi₁ (Eq.refl (d₁.scratch t))
    (View.sees_of t hi₁) (fun _ _ hm => hm) hclear clearParams_straight
  exact ⟨is ++ is', T', d', exec_bind hall he⟩

/-- **Unloading.**  Once no session is at work, `kafka_table_shutdown` can return; and whatever
librdkafka and the poll thread do meanwhile, when it has, nothing is left that would run the
module's code, and every message ever accepted was reported, once. -/
theorem unload_silent {s : Machine} (h : s.Reachable) (hidle : ∀ t, s.thr t = none) (t : Nat) :
    (∃ items T' d', exec iface t kafkaTableShutdown items s.sh s.fr = some ((), T', d')) ∧
      ∀ items T' d', exec iface t kafkaTableShutdown items s.sh s.fr = some ((), T', d') →
        Silent T' d' ∧ d'.accepted = s.fr.accepted :=
  ⟨h.shuts_down hidle t, fun _ _ _ he =>
    silent_of_shutdown h.inv (h.world (h.noWriter hidle)) h.attentive.held he⟩

/-- A session has connected and sent a message, which is not delivered yet. -/
def pendingSend : List (Label Ans Ev TableCall) :=
  calling 0 (.connect (some (.lit "b"))) 20 ++ calling 0 (.create (some (.lit "t"))) 15 ++
    calling 0 (.send (some (.lit "t")) [1]) 11

/-- It is reported before the module is gone. -/
theorem pendingSend_reported : ∃ (s : Machine) (T' : Tab) (d' : Flow), s.fr.served = [] ∧
    s.fr.inflight.length = 1 ∧ Silent T' d' ∧ d'.served.length = 1 := by
  have hrun : (Cfg.run iface tableProg pendingSend Machine.initial).map (fun s =>
      ((s.thr 0).isNone, s.fr.served, s.fr.inflight.length, s.fr.accepted.length)) =
        some (true, [], 1, 1) := by decide +kernel
  obtain ⟨s, hs, he⟩ := Option.map_eq_some_iff.mp hrun
  simp only [Prod.mk.injEq] at he
  have hidle : ∀ t, s.thr t = none := by
    intro t
    by_cases h₀ : t = 0
    · subst h₀
      exact Option.isNone_iff_eq_none.mp he.1
    · have hall : (pendingSend.all fun l => l.thread == some 0) = true := by decide +kernel
      refine Cfg.run_of_ne (s := Machine.initial) hs fun l hl e => ?_
      have hl := List.all_eq_true.mp hall l hl
      rw [e] at hl
      simp [h₀] at hl
  obtain ⟨⟨items, T', d', hex⟩, hall⟩ := unload_silent (Cfg.reach_of_run hs) hidle 0
  obtain ⟨hsilent, hacc⟩ := hall items T' d' hex
  refine ⟨s, T', d', he.2.1, he.2.2.1, hsilent, ?_⟩
  have hlen := hsilent.reported.length_eq
  rw [List.length_map, hacc, he.2.2.2] at hlen
  exact hlen.symm

end TrigEmit
