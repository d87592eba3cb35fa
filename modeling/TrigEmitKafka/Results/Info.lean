import TrigEmitKafka.Results.Frozen
import TrigEmitKafka.Rules.Quick
import TrigEmitKafka.Rules.Sessions
import Mathlib.Data.Nat.Digits.Defs

/-!
# Results — what `kafka_info` shows

`kafkaInfo_returns` says what `kafka_info` returns from any table state: a function of what can be
seen there.  From it:

* `info_hides_secrets`: two states that differ in the values of secret parameters alone give the
  same `kafka_info` and, at every buffer length, the same `kafka_table_describe_params`.
* `rendered_exactly`: what either shows of the parameters is an exact, bounded prefix of their
  rendering.
-/

namespace TrigEmit

open Conc (Cfg EnvSteps Label LProg Returns exec exec_cons exec_nil exec_op exec_ret)
open Conc.Logic (alone allowed_any)

/-! ### What the readers answer -/

/-- `kafka_table_get_brokers`, where `s` is what can be seen. -/
def Seen.getBrokers (s : Seen) (buflen : Nat) : Int × List UInt8 :=
  if buflen = 0 then (0, []) else
    match s.brokers with
    | none   => (0, [])
    | some b => (1, b.1.take (buflen - 1))

/-- `kafka_table_describe_params`, where `s` is what can be seen. -/
def Seen.describeParams (s : Seen) (buflen : Nat) : Int × List UInt8 :=
  if buflen = 0 then (0, []) else (cInt s.params.length, described buflen s.params 0 [])

/-- The text behind `Brokers:`. -/
def Seen.brokerLine (s : Seen) : List UInt8 :=
  match s.brokers with
  | none   => (CStr.lit "Not connected").1
  | some b => b.1.take maxSetupVarLen

/-- `kafka_info`, where `s` is what can be seen. -/
def Seen.info (package : PackageString) (s : Seen) : List UInt8 × Nat :=
  let params := s.describeParams (infoMaxLen / 2)
  let text := infoText package s.brokerLine params.1 params.2
  (text.take (infoMaxLen - 1), infoLength text)

/-- What `kafka_table_get_brokers` answers, and what it leaves. -/
theorem TableState.getBrokers_exec (s : TableState) {t buflen : Nat} {course : Course}
    {r : Int × List UInt8} {T : Tab} {d : Flow}
    (he : exec iface t (tableProg (.getBrokers buflen)) course s.sh s.fr = some (r, T, d)) :
    r = s.seen.getBrokers buflen ∧ ∃ s' : TableState, s'.sh = T ∧ s'.fr = d ∧ s'.seen = s.seen := by
  obtain ⟨W, hW, hT⟩ := s.world
  obtain ⟨hi', W', b', hT', hW', -, -, rfl, -, hr⟩ :=
    exec_effect s.inv hT hW (allowed_any course) he
  refine ⟨?_, ⟨T, d, hi', W', hW', hT'⟩, rfl, rfl, hT'.seen.trans hT.seen.symm⟩
  rw [hr, TableState.seen, hT.seen]
  cases hp : W'.obs.producer <;> simp [Seen.getBrokers, Obs.brokers, Obs.seen, hp]

/-- What `kafka_table_describe_params` answers, and what it leaves. -/
theorem TableState.describeParams_exec (s : TableState) {t buflen : Nat} {course : Course}
    {r : Int × List UInt8} {T : Tab} {d : Flow}
    (he : exec iface t (tableProg (.describeParams buflen)) course s.sh s.fr = some (r, T, d)) :
    r = s.seen.describeParams buflen ∧
      ∃ s' : TableState, s'.sh = T ∧ s'.fr = d ∧ s'.seen = s.seen := by
  obtain ⟨W, hW, hT⟩ := s.world
  obtain ⟨hi', W', b', hT', hW', -, -, rfl, -, hr⟩ :=
    exec_effect s.inv hT hW (allowed_any course) he
  refine ⟨?_, ⟨T, d, hi', W', hW', hT'⟩, rfl, rfl, hT'.seen.trans hT.seen.symm⟩
  rw [hr, TableState.seen, hT.seen]
  rfl

theorem getBrokers_returns (s : TableState) (t buflen : Nat) :
    Returns iface t (tableProg (.getBrokers buflen)) s.sh s.fr (s.seen.getBrokers buflen) := by
  refine ⟨?_, fun course r T d he => (s.getBrokers_exec he).1⟩
  obtain ⟨course, r, T, d, he⟩ := s.returns t (c := .getBrokers buflen)
    (straight_quick (getBrokers_straight buflen))
  obtain rfl := (s.getBrokers_exec he).1
  exact ⟨course, T, d, he⟩

theorem describeParams_returns (s : TableState) (t buflen : Nat) :
    Returns iface t (tableProg (.describeParams buflen)) s.sh s.fr
      (s.seen.describeParams buflen) := by
  refine ⟨?_, fun course r T d he => (s.describeParams_exec he).1⟩
  obtain ⟨course, r, T, d, he⟩ := s.returns t (c := .describeParams buflen)
    (straight_quick (kafkaTableDescribeParams_straight buflen))
  obtain rfl := (s.describeParams_exec he).1
  exact ⟨course, T, d, he⟩

/-! ### `kafka_info` -/

/-- librdkafka moves on, and the table stays. -/
def TableState.after (s : TableState) {d : Flow} (h : EnvSteps tableIface s.sh s.fr d) :
    TableState :=
  ⟨s.sh, d, s.inv.envSteps h, s.world⟩

/-- What `kafka_info` makes of the two answers. -/
theorem Seen.info_eq (package : PackageString) (s : Seen) :
    (let brokers := s.getBrokers (maxSetupVarLen + 1)
     let params := s.describeParams (infoMaxLen / 2)
     let brk := if brokers.1 = 0 then (CStr.lit "Not connected").1 else brokers.2
     let text := infoText package brk params.1 params.2
     (text.take (infoMaxLen - 1), infoLength text)) = s.info package := by
  cases hb : s.brokers <;> simp [Seen.info, Seen.getBrokers, Seen.brokerLine, hb]

/-- **`kafka_info` alone** returns what can be seen. -/
theorem kafkaInfo_returns (s : TableState) (t : Nat) (package : PackageString) :
    Returns tableIface t (kafkaInfo package) s.sh s.fr (s.seen.info package) := by
  constructor
  · obtain ⟨course₁, b, T₁, d₁, h₁⟩ := s.returns t (c := .getBrokers (maxSetupVarLen + 1))
      (straight_quick (getBrokers_straight _))
    obtain ⟨rfl, s₁, rfl, rfl, hs₁⟩ := s.getBrokers_exec h₁
    obtain ⟨course₂, p, T₂, d₂, h₂⟩ := s₁.returns t (c := .describeParams (infoMaxLen / 2))
      (straight_quick (kafkaTableDescribeParams_straight _))
    obtain ⟨rfl, -⟩ := s₁.describeParams_exec h₂
    refine ⟨[.ans course₁, .ans course₂], T₂, d₂, ?_⟩
    rw [kafkaInfo, exec_cons h₁, exec_cons h₂]
    refine (exec_nil _ _ _ _).trans ?_
    rw [hs₁, Seen.info_eq]
  · intro courses r T d he
    obtain ⟨d₁, course₁, b, T₁, d₂, rest, hsteps, h₁, he, -⟩ := exec_op he
    obtain ⟨rfl, s₁, rfl, rfl, hs₁⟩ := (s.after hsteps).getBrokers_exec h₁
    obtain ⟨d₃, course₂, p, T₃, d₄, rest', hsteps', h₂, he, -⟩ := exec_op he
    obtain ⟨rfl, -⟩ := (s₁.after hsteps').describeParams_exec h₂
    obtain ⟨rfl, -, -⟩ := exec_ret he
    have hseen : (s₁.after hsteps').seen = (s.after hsteps).seen := hs₁
    rw [hseen]
    exact Seen.info_eq package s.seen

/-! ### Secrets -/

/-- The two show the same, but for the values of secret parameters. -/
structure SameButSecrets (a b : Seen) : Prop where
  brokers : a.brokers = b.brokers
  params : List.Forall₂ (fun p q => p.1 = q.1 ∧ (kafkaParamIsSecret p.1 = false → p.2 = q.2))
    a.params b.params

theorem SameButSecrets.shown {a b : Seen} (h : SameButSecrets a b) :
    a.params.map shownParam = b.params.map shownParam := by
  have hline : ∀ p q : CStr × CStr, (p.1 = q.1 ∧ (kafkaParamIsSecret p.1 = false → p.2 = q.2)) →
      shownParam p = shownParam q := by
    rintro p q ⟨hn, hv⟩
    rw [shownParam, shownParam, ← hn]
    cases hsec : kafkaParamIsSecret p.1 with
    | true => rfl
    | false => rw [hv hsec]
  have hps : List.Forall₂ (· = ·) (a.params.map shownParam) (b.params.map shownParam) :=
    List.forall₂_map_left_iff.mpr (List.forall₂_map_right_iff.mpr (h.params.imp hline))
  rwa [List.forall₂_eq_eq_eq] at hps

theorem SameButSecrets.describeParams {a b : Seen} (h : SameButSecrets a b) (buflen : Nat) :
    a.describeParams buflen = b.describeParams buflen := by
  rw [Seen.describeParams, Seen.describeParams, described_congr h.shown, h.params.length_eq]

theorem SameButSecrets.info {a b : Seen} (h : SameButSecrets a b) (package : PackageString) :
    a.info package = b.info package := by
  rw [Seen.info, Seen.info, h.describeParams, Seen.brokerLine, Seen.brokerLine, h.brokers]

theorem describeInto_congr {ps qs : List (CStr × CStr)} (h : ps.map shownParam = qs.map shownParam)
    (buflen used : Nat) (buf : Buffer) :
    describeInto buflen ps used buf = describeInto buflen qs used buf := by
  induction ps generalizing qs used buf with
  | nil =>
      obtain rfl : qs = [] := by simpa using h.symm
      rfl
  | cons p ps ih =>
      cases qs with
      | nil => cases h
      | cons q qs =>
          obtain ⟨hp, hps⟩ := List.cons.inj h
          simp only [describeInto, hp, ih hps]

/-- **`kafka_info` does not depend on secret values**, and neither does what
`kafka_table_describe_params` answers and leaves in a buffer of any length. -/
theorem info_hides_secrets {s s' : TableState} (h : SameButSecrets s.seen s'.seen)
    (package : PackageString) :
    (∃ r, ∀ t, Returns tableIface t (kafkaInfo package) s.sh s.fr r ∧
      Returns tableIface t (kafkaInfo package) s'.sh s'.fr r) ∧
    (∀ buflen, ∃ r, ∀ t, Returns iface t (tableProg (.describeParams buflen)) s.sh s.fr r ∧
      Returns iface t (tableProg (.describeParams buflen)) s'.sh s'.fr r) ∧
    ∀ buf : Buffer, describeBuffer s.seen.params buf = describeBuffer s'.seen.params buf := by
  refine ⟨⟨s.seen.info package, fun t => ?_⟩, fun buflen => ?_, fun buf => ?_⟩
  · refine ⟨kafkaInfo_returns s t package, ?_⟩
    rw [h.info package]
    exact kafkaInfo_returns s' t package
  · refine ⟨s.seen.describeParams buflen, fun t => ⟨describeParams_returns s t buflen, ?_⟩⟩
    rw [h.describeParams buflen]
    exact describeParams_returns s' t buflen
  · have hinto : describeInto buf.length s.seen.params 0 = describeInto buf.length s'.seen.params 0 :=
      funext fun b => describeInto_congr h.shown _ _ b
    rw [describeBuffer, describeBuffer, hinto]

/-- A session stores a password. -/
def storingPassword (value : CStr) : List (Label Course Ev Command) :=
  running 0 (.connectionParam (some (CStr.lit "sasl.password").1) (some value.1)) [quietly 11]

/-- Two passwords of different lengths look the same. -/
theorem passwords_hidden : ∃ s s' : TableState,
    s.seen.params = [(.lit "sasl.password", .lit "a")] ∧
    s'.seen.params = [(.lit "sasl.password", .lit "bcd")] ∧
    ∃ r, ∀ t, Returns tableIface t (kafkaInfo somePackage) s.sh s.fr r ∧
      Returns tableIface t (kafkaInfo somePackage) s'.sh s'.fr r := by
  have hrun : ∀ v ∈ [CStr.lit "a", CStr.lit "bcd"], ∃ s : TableState,
      s.seen = ⟨false, none, [(.lit "sasl.password", v)], []⟩ := by
    intro v hv
    have hseen : (Cfg.run tableIface (commandProg somePackage) (storingPassword v)
        Sessions.initial).map (fun s => s.sh.seen) =
          some ⟨false, none, [(.lit "sasl.password", v)], []⟩ := by
      revert v
      decide +kernel
    obtain ⟨s, hs, he⟩ := Option.map_eq_some_iff.mp hseen
    exact ⟨Sessions.Reachable.state (Cfg.reach_of_run hs), he⟩
  obtain ⟨s, hs⟩ := hrun (.lit "a") (by decide)
  obtain ⟨s', hs'⟩ := hrun (.lit "bcd") (by decide)
  have hsame : SameButSecrets s.seen s'.seen := by
    rw [hs, hs']
    exact ⟨rfl, .cons ⟨rfl, fun h => absurd h (by decide)⟩ .nil⟩
  exact ⟨s, s', by rw [hs], by rw [hs'], (info_hides_secrets hsame somePackage).1⟩

/-! ### Exact prefixes -/

theorem length_lit (s : String) : (CStr.lit s).1.length ≤ s.length := by
  refine (CStr.length_ofBytes _).trans ?_
  rw [List.length_map]
  exact le_of_eq rfl

/-- A number as `%d` prints it. -/
theorem length_toString_cInt (n : Nat) : (CStr.lit (toString (cInt n))).1.length ≤ 11 := by
  refine (length_lit _).trans ?_
  have hlt : cInt n < 2 ^ 31 := Int.bmod_lt (by decide)
  have hle : -(2 ^ 31) ≤ cInt n := Int.le_bmod (by decide)
  cases hz : cInt n with
  | ofNat m =>
      rw [hz] at hlt
      have hm : m < 10 ^ 10 := by simp at hlt; omega
      exact (Nat.repr_length m 10 (by decide) hm).trans (by decide)
  | negSucc m =>
      rw [hz] at hle
      have hrepr := Nat.repr_length (m + 1) 10 (by decide) (by omega)
      have hneg : toString (Int.negSucc m) = "-" ++ Nat.repr (m + 1) := rfl
      have hminus : "-".length = 1 := rfl
      rw [hneg, String.length_append]
      omega

/-- The lines `kafka_info` prints before the parameters. -/
def infoHeader (package : PackageString) (s : Seen) : List UInt8 :=
  infoText package s.brokerLine (cInt s.params.length) []

theorem infoText_eq (package : PackageString) (brk : List UInt8) (n : Int) (params : List UInt8) :
    infoText package brk n params = infoText package brk n [] ++ params := by
  simp [infoText]

theorem length_brokerLine (s : Seen) : s.brokerLine.length ≤ maxSetupVarLen := by
  unfold Seen.brokerLine
  split
  · decide
  · rw [List.length_take]; omega

/-- The text's length is an `int`. -/
theorem length_infoText (package : PackageString) (s : Seen) {params : List UInt8}
    (h : params.length ≤ infoMaxLen) :
    (infoText package s.brokerLine (cInt s.params.length) params).length < 2 ^ 31 := by
  have h₁ := package.2
  have h₂ := length_brokerLine s
  have h₃ := length_toString_cInt s.params.length
  have h₄ : (CStr.lit "Version: ").1.length = 9 ∧ (CStr.lit "\nBrokers: ").1.length = 10 ∧
      (CStr.lit "\nParameters: ").1.length = 13 ∧ (CStr.lit "\n").1.length = 1 := by decide
  obtain ⟨ha, hb, hc, hd⟩ := h₄
  have hm : maxSetupVarLen = 512 := rfl
  have hi : infoMaxLen = 1024 := rfl
  simp only [infoText, List.length_append, ha, hb, hc, hd]
  omega

/-- `*length` is the number of bytes before the terminator. -/
theorem infoLength_eq {text : List UInt8} (h : text.length < 2 ^ 31) :
    infoLength text = (text.take (infoMaxLen - 1)).length := by
  have hi : infoMaxLen = 1024 := rfl
  simp only [infoLength, snprintfResult, if_pos h, List.length_take]
  rw [if_neg (by omega)]
  split <;> omega

/-- What is shown of the parameters is an exact, bounded prefix of their rendering. -/
structure Rendered (package : PackageString) (s : TableState) : Prop where
  /-- `kafka_table_describe_params` writes to its buffer only, and leaves it terminated. -/
  buffer : ∀ buf : Buffer, 1 ≤ buf.length → buf.length ≤ ptrdiffMax → ∃ (buf' : Buffer) (str : CStr),
    describeBuffer s.seen.params buf = some buf' ∧ buf'.length = buf.length ∧
    buf'.cstr = some str ∧ str.1 = (rendering s.seen.params).take (buf.length - 1)
  /-- It returns the count, and what it leaves is that prefix. -/
  describe : ∀ t buflen, 1 ≤ buflen → Returns iface t (tableProg (.describeParams buflen)) s.sh s.fr
    (cInt s.seen.params.length, (rendering s.seen.params).take (buflen - 1))
  /-- `kafka_info` returns its header and that prefix, cut to its own buffer. -/
  info : ∀ t, ∃ text : List UInt8, text = (infoHeader package s.seen ++
      (rendering s.seen.params).take (infoMaxLen / 2 - 1)).take (infoMaxLen - 1) ∧
    Returns tableIface t (kafkaInfo package) s.sh s.fr (text, text.length)

theorem Seen.describeParams_eq {s : Seen} (hs : Storable s.params) {buflen : Nat}
    (hb : 1 ≤ buflen) :
    s.describeParams buflen = (cInt s.params.length, (rendering s.params).take (buflen - 1)) := by
  rw [Seen.describeParams, if_neg (by omega), described_start (Or.inr hs)]

theorem Seen.info_storable (package : PackageString) {s : Seen} (hs : Storable s.params) :
    s.info package =
      (let text := (infoHeader package s ++ (rendering s.params).take (infoMaxLen / 2 - 1)).take
        (infoMaxLen - 1)
       (text, text.length)) := by
  have hd := Seen.describeParams_eq hs (show 1 ≤ infoMaxLen / 2 by decide)
  have hlen : ((rendering s.params).take (infoMaxLen / 2 - 1)).length ≤ infoMaxLen := by
    rw [List.length_take]
    have hi : infoMaxLen = 1024 := rfl
    omega
  simp only [Seen.info, hd]
  rw [infoLength_eq (length_infoText package s hlen), infoText_eq]
  rfl

/-- **Rendering is an exact, bounded prefix**, at every state whose parameters are as sessions
store them, which every state of the sessions is. -/
theorem rendered_exactly (package : PackageString) :
    (∀ s : TableState, Storable s.seen.params → Rendered package s) ∧
      ∀ s : Sessions, s.Reachable package → Storable s.sh.seen.params := by
  refine ⟨fun s hs => ⟨fun buf h₁ h₂ => ?_, fun t buflen hb => ?_, fun t => ⟨_, rfl, ?_⟩⟩,
    fun s h => h.storable⟩
  · obtain ⟨buf', hbuf, hlen, str, hstr, hs'⟩ := describeBuffer_spec hs h₁ h₂
    exact ⟨buf', str, hbuf, hlen, hstr, hs'.trans (described_start (Or.inr hs))⟩
  · rw [← Seen.describeParams_eq hs hb]
    exact describeParams_returns s t buflen
  · have hinfo := Seen.info_storable package hs
    rw [← hinfo]
    exact kafkaInfo_returns s t package

/-- Two sessions store a parameter each, the second a secret one. -/
def twoParams : List (Label Course Ev Command) :=
  running 0 (.connectionParam (some (CStr.lit "acks").1) (some (CStr.lit "1").1)) [quietly 11] ++
    running 1 (.connectionParam (some (CStr.lit "sasl.password").1) (some (CStr.lit "s3").1))
      [quietly 11]

/-- A buffer of 20 bytes takes the first line and a part of the second. -/
theorem twoParams_rendered : ∃ s : TableState,
    s.seen.params = [(.lit "acks", .lit "1"), (.lit "sasl.password", .lit "s3")] ∧
    Rendered somePackage s ∧ ∃ (buf' : Buffer) (str : CStr),
      describeBuffer s.seen.params (List.replicate 20 255) = some buf' ∧ buf'.length = 20 ∧
      buf'.cstr = some str ∧ str = .lit "  acks = 1\n  sasl.p" := by
  have hrun : (Cfg.run tableIface (commandProg somePackage) twoParams Sessions.initial).map
      (fun s => s.sh.seen.params) =
        some [(.lit "acks", .lit "1"), (.lit "sasl.password", .lit "s3")] := by
    decide +kernel
  obtain ⟨s, hs, hparams⟩ := Option.map_eq_some_iff.mp hrun
  have hreach : Sessions.Reachable somePackage s := Cfg.reach_of_run hs
  obtain ⟨hall, hstorable⟩ := rendered_exactly somePackage
  have hr := hall ⟨s.sh, s.fr, hreach.world.1, hreach.world.2⟩ (hstorable s hreach)
  refine ⟨_, hparams, hr, ?_⟩
  obtain ⟨buf', str, hbuf, hlen, hstr, htake⟩ := hr.buffer (List.replicate 20 255)
    (by rw [List.length_replicate]; omega) (by rw [List.length_replicate]; decide)
  refine ⟨buf', str, hbuf, hlen, hstr, Subtype.ext (htake.trans ?_)⟩
  show (rendering s.sh.seen.params).take 19 = _
  rw [hparams]
  decide +kernel

end TrigEmit
