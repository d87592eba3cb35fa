import TrigEmitKafka.Source.Statements
import TrigEmitKafka.Support.Track
import TrigEmitKafka.Results.Arguments
import TrigEmitKafka.Results.Registry

/-!
# Results — the SQL functions in a statement

`kafka_info_init` allocates a result buffer, `kafka_info` writes to it for every row, and
`kafka_info_deinit` frees it; the pointer goes from one to the next in `initid->ptr`.

* `info_buffers_kept`: whatever statements run among each other, every result buffer belongs to
  one open statement, which has no other; what is written fits it; it is freed once, by the
  statement it belongs to.
* `init_agrees`: where nothing fails outside, the call that `_init` refuses would have failed, and
  the one it accepts returns and succeeds with any arguments the function can carry out.
-/

namespace TrigEmit

open Conc (Cfg Item LProg Track exec exec_ret)
open Conc.Logic (alone allowed_any)
open Conc.Track (Follows Truthful)
open Store.Heap

/-! ### The buffer a statement has -/

/-- The mode of a statement is the buffer it has: it allocates one at most, writes to that one
within its size, and frees that one. -/
def infoBuffer : Track UdfOp UdfOp.Res (Option Nat) where
  needs
    | .table _,          _ => True
    | .mallocInfo,       m => m = none
    | .writeInfo p text, m => p = m ∧ m.isSome ∧ text.length < infoMaxLen
    | .freeInfo p,       m => m = some p
  moves
    | .table _,       _, m => m
    | .mallocInfo,    r, _ => r
    | .writeInfo _ _, _, m => m
    | .freeInfo _,    _, _ => none

/-- The buffer `p` is there, and belongs to the statement `t`. -/
def UdfFlow.Owned (d : UdfFlow) (p t : Nat) : Prop :=
  ∃ x, d.infos.get p = some x ∧ x.owner = t ∧ x.buf.length = infoMaxLen

/-- `m` is the buffer of the statement `t`, and its only one. -/
structure UdfFlow.Has (d : UdfFlow) (t : Nat) (m : Option Nat) : Prop where
  owned : ∀ p, m = some p → d.Owned p t
  only : ∀ p x, d.infos.get p = some x → x.owner = t → m = some p

/-- What a call does to the result buffers. -/
theorem UdfOp.act_infos {t : Nat} {o : UdfOp} {a : UdfAns} {T T' : Tab} {d d' : UdfFlow} {r : o.Res}
    (h : o.act t a T d = some (r, T', d')) :
    match o with
    | .table _          => d'.infos = d.infos
    | .mallocInfo       => (r = none ∧ d'.infos = d.infos) ∨ (r = some d.infos.next ∧
        d'.infos = d.infos.alloc ⟨t, List.replicate infoMaxLen 0⟩)
    | .writeInfo p text => ∃ q x buf, p = some q ∧ d.infos.get q = some x ∧
        x.buf.write 0 (text ++ [0]) = some buf ∧ d'.infos = d.infos.set q { x with buf := buf }
    | .freeInfo p       => d'.infos = d.infos.free p := by
  cases o with
  | table c =>
      cases a with
      | malloc b => cases h
      | course course =>
          obtain ⟨x, -, e⟩ := Option.map_eq_some_iff.mp h
          cases e
          rfl
  | mallocInfo =>
      cases a with
      | course course => cases h
      | malloc b =>
          cases b with
          | true => cases h; exact Or.inr ⟨rfl, rfl⟩
          | false => cases h; exact Or.inl ⟨rfl, rfl⟩
  | writeInfo p text =>
      obtain ⟨q, rfl, h⟩ := Option.bind_eq_some_iff.mp h
      obtain ⟨x, hx, h⟩ := Option.bind_eq_some_iff.mp h
      obtain ⟨buf, hbuf, e⟩ := Option.map_eq_some_iff.mp h
      cases e
      exact ⟨q, x, buf, rfl, hx, hbuf, rfl⟩
  | freeInfo p => cases h; rfl

theorem UdfFlow.Has.same {t : Nat} {m : Option Nat} {d d' : UdfFlow} (h : d.Has t m)
    (e : d'.infos = d.infos) : d'.Has t m := by
  constructor
  · intro p hp
    obtain ⟨x, hx, hown⟩ := h.owned p hp
    exact ⟨x, e ▸ hx, hown⟩
  · intro p x hx ho
    exact h.only p x (e ▸ hx) ho

/-- A buffer that is written to stays whose it is. -/
theorem has_set {d : UdfFlow} {q u : Nat} {x : InfoBuf} {buf : Buffer} {m : Option Nat}
    {infos : Store.Heap InfoBuf} (hx : d.infos.get q = some x) (hlen : buf.length = x.buf.length)
    (hinfos : infos = d.infos.set q { x with buf := buf }) (h : d.Has u m) (flow : Flow) :
    UdfFlow.Has ⟨flow, infos⟩ u m := by
  subst hinfos
  constructor
  · intro p hp
    obtain ⟨y, hy, ho, hl⟩ := h.owned p hp
    by_cases e : p = q
    · subst e
      cases hx.symm.trans hy
      exact ⟨_, get_set_self hx, ho, hlen.trans hl⟩
    · exact ⟨y, (get_set_ne e).trans hy, ho, hl⟩
  · intro p y hy ho
    by_cases e : p = q
    · subst e
      cases (get_set_self hx).symm.trans hy
      exact h.only p x hx ho
    · exact h.only p y ((get_set_ne e).symm.trans hy) ho

/-- A statement that keeps to its buffer has it, whatever the others do with theirs. -/
theorem infoBuffer_truthful : infoBuffer.Truthful udfIface fun t m d => d.Has t m where
  act {t o a T d r T' d' m} h hn ha := by
    have hinfos := UdfOp.act_infos ha
    cases o with
    | table c => exact h.same hinfos
    | mallocInfo =>
        obtain rfl : m = none := hn
        rcases hinfos with ⟨rfl, e⟩ | ⟨rfl, e⟩
        · exact h.same e
        · constructor
          · rintro p hp
            cases hp
            exact ⟨_, by rw [e, get_alloc_next], rfl, List.length_replicate ..⟩
          · intro p x hx ho
            by_cases hp : p = d.infos.next
            · exact congrArg some hp.symm
            · rw [e, get_alloc_ne hp] at hx
              cases h.only p x hx ho
    | writeInfo p text =>
        obtain ⟨q, x, buf, -, hx, hbuf, e⟩ := hinfos
        exact has_set hx (Buffer.length_write hbuf) e h d'.flow
    | freeInfo p =>
        obtain rfl : m = some p := hn
        have e : d'.infos = d.infos.free p := hinfos
        constructor
        · intro q hq
          cases hq
        · intro q x hx ho
          rw [e] at hx
          cases h.only q x (get_free hx) ho
          rw [get_free_self] at hx
          cases hx
  other {t u o a T d r T' d' m n} hu h h' hn ha := by
    have hinfos := UdfOp.act_infos ha
    cases o with
    | table c => exact h.same hinfos
    | mallocInfo =>
        rcases hinfos with ⟨-, e⟩ | ⟨-, e⟩
        · exact h.same e
        · constructor
          · intro p hp
            obtain ⟨x, hx, hown⟩ := h.owned p hp
            exact ⟨x, by rw [e, get_alloc hx], hown⟩
          · intro p x hx ho
            by_cases hp : p = d.infos.next
            · rw [hp, e, get_alloc_next] at hx
              cases hx
              exact absurd ho.symm hu
            · rw [e, get_alloc_ne hp] at hx
              exact h.only p x hx ho
    | writeInfo p text =>
        obtain ⟨q, x, buf, -, hx, hbuf, e⟩ := hinfos
        exact has_set hx (Buffer.length_write hbuf) e h d'.flow
    | freeInfo p =>
        -- what is freed is the buffer of the statement that frees it
        have e : d'.infos = d.infos.free p := hinfos
        obtain ⟨y, hy, hown, -⟩ := h'.owned p hn
        constructor
        · intro q hq
          obtain ⟨x, hx, ho, hl⟩ := h.owned q hq
          have hne : q ≠ p := by
            rintro rfl
            cases hx.symm.trans hy
            exact hu (ho.symm.trans hown)
          exact ⟨x, by rw [e, get_free_ne hne, hx], ho, hl⟩
        · intro q x hx ho
          rw [e] at hx
          exact h.only q x (get_free hx) ho
  env {u e T d d' m} h he := by
    obtain ⟨flow, -, rfl⟩ := Option.map_eq_some_iff.mp he
    exact ⟨h.owned, h.only⟩

/-! ### A statement keeps to its buffer -/

/-- A program that calls the table alone leaves the mode. -/
theorem udf_follows {α : Type} {A : TableCall → Prop} {p : Session α} (hp : p.Straight A)
    (m : Option Nat) : infoBuffer.Follows (Session.udf p) m fun _ m' => m' = m := by
  induction p with
  | ret x => rfl
  | loop body k => exact hp.elim
  | call c k ih =>
      obtain ⟨-, hk⟩ := hp
      cases c with
      | rdlock => exact ih () (hk ())
      | wrlock => exact ih () (hk ())
      | unlock => exact ih () (hk ())
      | op o => exact ⟨trivial, fun r => ih r (hk r)⟩

/-- The calls of the `_init` functions: they look, and change nothing. -/
def TableCall.Looks : TableCall → Prop
  | .connected | .validateParam _ _ | .exists _ => True
  | _                                           => False

/-- The `_init` functions make finitely many calls, and change nothing. -/
theorem initChecks_straight (fn : SqlFunction) (args : List UdfArg) :
    (initChecks fn args).Straight TableCall.Looks := by
  cases fn with
  | connect =>
      simp only [initChecks, kafkaConnectInit]
      split
      · exact .pure
      · exact .op trivial fun connected => by split <;> exact .pure
  | connectionParam =>
      simp only [initChecks, kafkaConnectionParamInit]
      split
      · exact .pure
      · refine .op trivial fun connected => ?_
        split
        · exact .pure
        · split
          · exact .pure
          · split
            · exact .pure
            · exact .op trivial fun r => by split <;> exact .pure
  | disconnect =>
      simp only [initChecks, kafkaDisconnectInit]
      split <;> exact .pure
  | send =>
      simp only [initChecks, kafkaSendInit]
      split
      · exact .pure
      · exact .op trivial fun connected => by split <;> exact .pure
  | stats =>
      simp only [initChecks, kafkaStatsInit]
      split
      · split
        · exact .pure
        · refine .op trivial fun connected => ?_
          split
          · split
            · exact .pure
            · split
              · exact .pure
              · exact .op trivial fun found => by split <;> exact .pure
          · exact .pure
      · exact .pure
  | info =>
      simp only [initChecks, kafkaInfoInit]
      split <;> exact .pure

/-- `_init` leaves the statement with the buffer it stores in `initid->ptr`: one where
`kafka_info` is accepted, none where anything is refused. -/
theorem initProg_follows (fn : SqlFunction) (args : List UdfArg) :
    infoBuffer.Follows (initProg fn args) none fun r m =>
      m = r.2 ∧ (r.1.refused = none → fn = .info → r.2.isSome) ∧ (r.1.refused.isSome → r.2 = none) := by
  refine (udf_follows (initChecks_straight fn args) none).bind ?_
  rintro r _ rfl
  split
  · rename_i href
    refine .op rfl fun p => ?_
    cases p with
    | none => exact .pure ⟨rfl, fun e => (by cases e), fun _ => rfl⟩
    | some p => exact .pure ⟨rfl, fun _ _ => rfl, fun h => by rw [href] at h; cases h⟩
  · rename_i hno
    exact .pure ⟨rfl, fun href hfn => (hno hfn href).elim, fun _ => rfl⟩

/-- A row leaves the statement with its buffer; `kafka_info` writes what fits it. -/
theorem rowProg_follows {package : PackageString} {ptr : Option Nat} {c : Command}
    (hc : c = .info → ptr.isSome) :
    infoBuffer.Follows (rowProg package ptr c) ptr fun _ m => m = ptr := by
  cases c with
  | info =>
      refine Follows.bind (P := fun r m => r.1.length < infoMaxLen ∧ m = ptr) ?_ ?_
      · exact ⟨trivial, fun brokers => ⟨trivial, fun params => ⟨by simp [infoMaxLen], rfl⟩⟩⟩
      · rintro r _ ⟨hlen, rfl⟩
        exact ⟨⟨rfl, hc rfl, hlen⟩, fun _ => rfl⟩
  | _ => exact (udf_follows (commandProg_passes package _) ptr).bind fun _ _ e => .pure e

/-- A function is called by its own name. -/
theorem SqlFunction.command_info {fn : SqlFunction} {row : List SqlArg}
    (h : fn.command row = some .info) : fn = .info := by
  unfold SqlFunction.command at h
  split at h <;> first | rfl | cases h

theorem rowsProg_follows {package : PackageString} {fn : SqlFunction} {ptr : Option Nat}
    (hfn : fn = .info → ptr.isSome) (rows : List (List SqlArg)) :
    infoBuffer.Follows (rowsProg package fn ptr rows) ptr fun _ m => m = ptr := by
  induction rows with
  | nil => exact .pure rfl
  | cons row rows ih =>
      simp only [rowsProg]
      split
      · rename_i c hc
        refine (rowProg_follows fun e => hfn (SqlFunction.command_info (e ▸ hc))).bind ?_
        rintro _ _ rfl
        exact ih
      · exact ih

/-- A statement starts and ends without a buffer. -/
theorem statement_follows (package : PackageString) (st : Statement) :
    infoBuffer.Follows (statement package st) none fun _ m => m = none := by
  refine (initProg_follows st.fn st.args).bind ?_
  rintro ⟨r, ptr⟩ m ⟨rfl, haccept, hrefuse⟩
  dsimp only at haccept hrefuse ⊢
  split
  · rename_i message href
    exact .pure (hrefuse (by rw [href]; rfl))
  · rename_i href
    refine (rowsProg_follows (haccept href) st.rows).bind ?_
    intro _ m hm
    subst hm
    refine Follows.bind (P := fun _ m => m = none) ?_ fun _ _ e => .pure e
    cases m with
    | none => exact .pure rfl
    | some p => exact ⟨rfl, fun _ => rfl⟩

/-! ### Statements among each other -/

/-- A state of the module and the statements that use it. -/
abbrev Statements := Cfg Tab UdfFlow UdfOp UdfOp.Res Statement fun _ => Option Buffer

/-- Nothing was called yet. -/
def Statements.initial : Statements := Cfg.init Tab.init UdfFlow.init

/-- A state some run comes to. -/
abbrev Statements.Reachable (package : PackageString) (s : Statements) : Prop :=
  Cfg.Reach udfIface (statement package) Statements.initial s

theorem Statements.Reachable.kept {package : PackageString} {s : Statements}
    (h : s.Reachable package) :
    Conc.Track.Kept infoBuffer none (fun m => m = none) (fun t m d => d.Has t m) s :=
  infoBuffer_truthful.kept (statement_follows package) (fun hm h => hm ▸ h)
    (fun _ => ⟨fun _ hp => (by cases hp), fun _ _ hx => (by cases hx)⟩) h

/-- **The result buffers of `kafka_info`.**  Every buffer that is there belongs to one statement,
which is open and has no other; so with no statement open there is none.  Whatever is written goes
to the writer's own buffer and fits it with its terminator, and whatever is freed is there and is
the buffer of the statement that frees it. -/
theorem info_buffers_kept (package : PackageString) {s : Statements} (h : s.Reachable package) :
    (∀ p x, s.fr.infos.get p = some x → (s.thr x.owner).isSome ∧
      ∀ q y, s.fr.infos.get q = some y → y.owner = x.owner → q = p) ∧
    (∀ t, s.next t = some .mallocInfo → ∀ p, ¬ s.fr.Owned p t) ∧
    (∀ t p text, s.next t = some (.writeInfo p text) →
      ∃ q, p = some q ∧ s.fr.Owned q t ∧ text.length < infoMaxLen) ∧
    ∀ t p, s.next t = some (.freeInfo p) → s.fr.Owned p t := by
  have hkept := h.kept
  refine ⟨?_, ?_, ?_, ?_⟩
  · intro p x hx
    cases hthr : s.thr x.owner with
    | none => cases (hkept.idle _ hthr).only p x hx rfl
    | some task =>
        obtain ⟨m, -, hm⟩ := hkept.busy _ task hthr
        refine ⟨rfl, ?_⟩
        intro q y hy ho
        exact Option.some.inj ((hm.only q y hy ho).symm.trans (hm.only p x hx rfl))
  · rintro t hnext p ⟨x, hx, ho, -⟩
    obtain ⟨m, hneeds, hm⟩ := hkept.needs hnext
    cases (hneeds : m = none).symm.trans (hm.only p x hx ho)
  · intro t p text hnext
    obtain ⟨m, ⟨rfl, hsome, hlen⟩, hm⟩ := hkept.needs hnext
    obtain ⟨q, rfl⟩ := Option.isSome_iff_exists.mp hsome
    exact ⟨q, rfl, hm.owned q rfl, hlen⟩
  · intro t p hnext
    obtain ⟨m, hneeds, hm⟩ := hkept.needs hnext
    exact hm.owned p hneeds

/-- `SELECT kafka_info()`, up to `kafka_info_deinit`. -/
def showingInfo : List (Conc.Label UdfAns Ev Statement) :=
  .start 0 ⟨.info, [], [[]]⟩ ::
    [.malloc true, .course (quietly 3), .course (quietly 3), .malloc true].map (.step 0)

set_option maxRecDepth 20000 in
/-- It is about to free its own buffer. -/
theorem showingInfo_frees : ∃ s, Statements.Reachable somePackage s ∧
    s.next 0 = some (.freeInfo 0) ∧ s.fr.Owned 0 0 := by
  have hrun : (Cfg.run udfIface (statement somePackage) showingInfo Statements.initial).map
      (fun s => s.next 0) = some (some (.freeInfo 0)) := by
    rfl
  obtain ⟨s, hs, hnext⟩ := Option.map_eq_some_iff.mp hrun
  have hreach : Statements.Reachable somePackage s := Cfg.reach_of_run hs
  exact ⟨s, hreach, hnext, (info_buffers_kept somePackage hreach).2.2.2 0 0 hnext⟩

/-! ### What `_init` refuses -/

/-- The row supplies the constants that `_init` saw. -/
def Supplies (args : List UdfArg) (row : List SqlArg) : Prop :=
  List.Forall₂ (fun (a : UdfArg) v => ∀ x, a.const = some x → v = some x) args row

/-- What the function can carry out, whatever is there. -/
def Command.Feasible : Command → Prop
  | .connect brokers            => ¬ Refusable maxSetupVarLen brokers
  | .connectionParam name value => ¬ Refusable maxSetupVarLen name ∧
      ∃ bs, value = some bs ∧ bs.length ≤ maxSetupVarLen
  | .send topic msg             => ¬ Refusable maxTopicLen topic ∧ msg.isSome
  | _                           => False

/-- It needs no array and no message beyond what can be allocated and taken at all. -/
def Command.Fits (T : Tab) : Command → Prop
  | .connectionParam _ _ => T.kt.params.HasRoom paramSize
  | .send _ msg          => T.kt.topics.HasRoom topicSize ∧
      ∀ data, msg = some data → data.length ≤ messageMaxBytes
  | _                    => True

section agree

variable {package : PackageString} {T T' : Tab} {d d' : Flow} {t : Nat} {W : World}
variable {courses : List (Item Course Ev)}

/-- A call that leaves what can be observed, and the end that follows. -/
theorem observed_call (hi : Inv T d) (hT : T.Is W.cells) (hW : W.Ok) {α : Type} {c : TableCall}
    {k : c.Ret → Session α} {x r : α}
    (hc : ∀ b F y W' b', Effect F c W b y W' b' → W'.obs = W.obs ∧ k y = pure x)
    (he : exec tableIface t (table c >>= k) courses T d = some (r, T', d')) :
    r = x ∧ T'.seen = T.seen := by
  obtain ⟨d₁, y, T₁, d₂, W₁, b₁, rest, -, -, hT₁, -, -, heff, -, hret⟩ :=
    session_call hi hT hW (allowedAll_any courses) he
  obtain ⟨hobs, hk⟩ := hc _ _ y W₁ b₁ heff
  rw [hk] at hret
  obtain ⟨rfl, rfl, -⟩ := exec_ret hret
  exact ⟨rfl, by rw [hT₁.seen, hT.seen, hobs]⟩

/-- While connected, no connection is made. -/
theorem connect_fails (hi : Inv T d) (hT : T.Is W.cells) (hW : W.Ok) (hconn : W.conn.isSome)
    {brokers : SqlArg} {r : SqlInt}
    (he : exec tableIface t (kafkaConnect brokers) courses T d = some (r, T', d')) :
    r = .failed ∧ T'.seen = T.seen := by
  simp only [kafkaConnect] at he
  split at he
  · obtain ⟨rfl, rfl, -⟩ := exec_ret he
    exact ⟨rfl, rfl⟩
  · refine observed_call hi hT hW ?_ he
    intro b F y W' b' heff
    have hne : y ≠ .ok () := by
      intro hy
      obtain ⟨bs, -, -, hc⟩ := heff.2.1 hy
      rw [(hc.ok hy).1] at hconn
      cases hconn
    refine ⟨(heff.2.2.1 hne).1.obs, ?_⟩
    cases y with
    | error text => rfl
    | ok u => exact absurd rfl hne

/-- A parameter is refused while connected, and where its name or value is too long or its name is
empty. -/
theorem connectionParam_fails (hi : Inv T d) (hT : T.Is W.cells) (hW : W.Ok) {name value : SqlArg}
    {r : SqlInt}
    (hbad : W.conn.isSome ∨ (value.isSome ∧ Refusable maxSetupVarLen name) ∨
      ∃ bs, value = some bs ∧ maxSetupVarLen < bs.length)
    (he : exec tableIface t (kafkaConnectionParam name value) courses T d = some (r, T', d')) :
    r = .failed ∧ T'.seen = T.seen := by
  simp only [kafkaConnectionParam] at he
  split at he
  · obtain ⟨rfl, rfl, -⟩ := exec_ret he
    exact ⟨rfl, rfl⟩
  rename_i n hn
  split at he
  · -- a property to forget
    have hconn : W.conn.isSome := by
      rcases hbad with h | ⟨h, -⟩ | ⟨bs, h, -⟩
      · exact h
      · cases h
      · cases h
    refine observed_call hi hT hW ?_ he
    rintro b F y W' b' ⟨-, ⟨n', -, -, hu⟩ | ⟨-, rfl, rfl⟩⟩
    · have hy : y ≠ 0 := by
        intro hy
        rw [(hu.ok hy).1] at hconn
        cases hconn
      exact ⟨(hu.fail hy).2.1.obs, by rw [if_pos hy]⟩
    · exact ⟨rfl, rfl⟩
  · rename_i bs
    split at he
    · obtain ⟨rfl, rfl, -⟩ := exec_ret he
      exact ⟨rfl, rfl⟩
    · rename_i hlen
      refine observed_call hi hT hW ?_ he
      intro b F y W' b' heff
      have hne : y ≠ .ok () := by
        intro hy
        obtain ⟨n', v, hn', -, hz, hs⟩ := heff.2.1 hy
        rcases hbad with hconn | ⟨-, href⟩ | ⟨bs', hbs', hlong⟩
        · rw [(hs.ok hy).1] at hconn
          cases hconn
        · rw [← hn', zstr_of_refusable href hn] at hz
          cases hz
        · cases hbs'
          exact hlen hlong
      refine ⟨(heff.2.2 hne).1.obs, ?_⟩
      cases y with
      | error text => rfl
      | ok u => exact absurd rfl hne

/-- Without a connection nothing is sent. -/
theorem send_fails (hi : Inv T d) (hT : T.Is W.cells) (hW : W.Ok) (hconn : W.conn = none)
    {topic msg : SqlArg} {r : SqlInt}
    (he : exec tableIface t (kafkaSend topic msg) courses T d = some (r, T', d')) :
    r = .failed ∧ T'.seen = T.seen := by
  have hnone : ∀ n, W.findTopic n = none := by
    intro n
    rcases Option.eq_none_or_eq_some (W.findTopic n) with hf | ⟨x, hf⟩
    · exact hf
    · obtain ⟨c, hc⟩ := World.conn_of_findTopic hf
      rw [hconn] at hc
      cases hc
  simp only [kafkaSend] at he
  split at he
  · obtain ⟨d₁, found, T₁, d₂, W₁, b₁, rest, -, hi₁, hT₁, hW₁, -, ⟨rfl, -, rfl⟩, -, he⟩ :=
      session_call hi hT hW (allowedAll_any courses) he
    rw [Option.bind_some, hnone] at he
    obtain ⟨hr, hseen⟩ := observed_call (x := SqlInt.failed) hi₁ hT₁ hW₁ (by
      rintro b F y W' b' ⟨-, hcr, -⟩
      have hy : y ≠ 0 := by
        intro hy
        obtain ⟨n, -, ⟨⟨x, hx⟩, -⟩ | ⟨-, hsome, -⟩⟩ := hcr.ok hy
        · rw [hnone] at hx
          cases hx
        · rw [hconn] at hsome
          cases hsome
      exact ⟨(hcr.fail hy).2.1.obs, by rw [if_pos hy]⟩) he
    exact ⟨hr, by rw [hseen, hT₁.seen, hT.seen]⟩
  · obtain ⟨rfl, rfl, -⟩ := exec_ret he
    exact ⟨rfl, rfl⟩

/-- A topic that is not there has no counters to show. -/
theorem stats_fails (hi : Inv T d) (hT : T.Is W.cells) (hW : W.Ok) {topic : SqlArg}
    {r : List UInt8} (hnone : W.findTopic ((terminated maxTopicLen topic).getD .empty) = none)
    (he : exec tableIface t (kafkaStats topic) courses T d = some (r, T', d')) :
    r = statsLine 0 0 ∧ T'.seen = T.seen := by
  refine observed_call hi hT hW ?_ he
  rintro b F y W' b' ⟨rfl, -, -, -, hy⟩
  rw [Option.bind_some, hnone] at hy
  exact ⟨rfl, by rw [hy]⟩

/-! ### What `_init` says -/

/-- A program that only looks leaves the world. -/
theorem looks_leave (hi : Inv T d) (hT : T.Is W.cells) (hW : W.Ok) {α : Type} {p : Session α}
    (hp : p.Straight TableCall.Looks) {r : α}
    (he : exec tableIface t p courses T d = some (r, T', d')) : Inv T' d' ∧ T'.Is W.cells := by
  refine Conc.exec_keeps_straight (P := fun T d => Inv T d ∧ T.Is W.cells) ?_ ?_ hp he ⟨hi, hT⟩
  · rintro t c course T d y T' d' hc ha ⟨hi, hT⟩
    obtain ⟨hi', W', b', hT', -, -, -, heff⟩ := exec_effect hi hT hW (allowed_any course) ha
    have hW' : W' = W := by
      cases c <;> first | exact heff.1 | exact hc.elim
    exact ⟨hi', hW' ▸ hT'⟩
  · rintro e T d d' he ⟨hi, hT⟩
    exact ⟨hi.env he, hT⟩

/-- What an `_init` function that asks whether there is a connection goes on with. -/
theorem connected_call (hi : Inv T d) (hT : T.Is W.cells) (hW : W.Ok)
    (hok : AllowedAll Ans.Granted courses) {α : Type} {k : Bool → Session α} {r : α}
    (he : exec tableIface t (table .connected >>= k) courses T d = some (r, T', d')) :
    ∃ T₁ d₁ rest, Inv T₁ d₁ ∧ T₁.Is W.cells ∧ AllowedAll Ans.Granted rest ∧
      exec tableIface t (k W.conn.isSome) rest T₁ d₁ = some (r, T', d') := by
  obtain ⟨d₁, y, T₁, d₂, W₁, b₁, rest, -, hi₁, hT₁, -, -, ⟨rfl, -, rfl⟩, hrest, he⟩ :=
    session_call hi hT hW hok he
  refine ⟨T₁, d₂, rest, hi₁, hT₁, hrest, ?_⟩
  rwa [World.obs, Option.isSome_map] at he

theorem connectInit_accepts (hi : Inv T d) (hT : T.Is W.cells) (hW : W.Ok)
    (hok : AllowedAll Ans.Granted courses) {args : List UdfArg} (hargs : args.length = 1)
    {r : InitResult}
    (he : exec tableIface t (kafkaConnectInit args) courses T d = some (r, T', d')) :
    r.refused = none ↔ W.conn = none := by
  simp only [kafkaConnectInit, hargs, ne_eq, not_true_eq_false, if_false] at he
  obtain ⟨T₁, d₁, rest, -, -, -, he⟩ := connected_call hi hT hW hok he
  cases hconn : W.conn with
  | none =>
      rw [hconn] at he
      obtain ⟨rfl, -⟩ := exec_ret he
      simp [accept]
  | some conn =>
      rw [hconn] at he
      obtain ⟨rfl, -⟩ := exec_ret he
      simp [refuse]

/-- The check of a constant parameter. -/
theorem constParam_accepts (hi : Inv T d) (hT : T.Is W.cells) (hW : W.Ok)
    (hok : AllowedAll Ans.Granted courses) {types : List ItemResult} {name value : List UInt8}
    {r : InitResult}
    (he : exec tableIface t (if name.length = 0 ∨ maxSetupVarLen < name.length ∨
          maxSetupVarLen < value.length then
        pure (refuse types "Wrong arguments. Property name or value is empty or too long.")
      else do
        match ← table (.validateParam (localCopy maxSetupVarLen name)
          (localCopy maxSetupVarLen value)) with
        | .error text => pure ⟨types, some (strncpy errmsgSize (errbuf text))⟩
        | .ok _       => pure (accept types)) courses T d = some (r, T', d')) :
    r.refused = none ↔
      ¬ Refusable maxSetupVarLen (some name) ∧ value.length ≤ maxSetupVarLen := by
  split at he
  · -- a length is wrong
    rename_i hlen
    obtain ⟨rfl, -⟩ := exec_ret he
    constructor
    · intro h
      cases h
    · rintro ⟨href, hvalue⟩
      obtain ⟨c, l, hl, hn⟩ := terminated_of_not_refusable href
      obtain ⟨bs, hbs, hne, hle, -⟩ := terminated_some hn
      cases hbs
      rcases hlen with h0 | hlong | hlong
      · exact absurd (List.eq_nil_of_length_eq_zero h0) hne
      · exact absurd hlong (Nat.not_lt.mpr hle)
      · exact absurd hlong (Nat.not_lt.mpr hvalue)
  · rename_i hlen
    rw [← or_assoc, not_or] at hlen
    have hname := not_or.mp hlen.1
    have hterm : terminated maxSetupVarLen (some name) = some (.ofBytes name) :=
      terminated_eq hname.1 (Nat.not_lt.mp hname.2)
    rw [localCopy_eq (Nat.not_lt.mp hname.2), localCopy_eq (Nat.not_lt.mp hlen.2)] at he
    obtain ⟨d₁, y, T₁, d₂, W₁, b₁, rest, -, -, -, -, -, ⟨-, -, hyok, hyfail⟩, -, he⟩ :=
      session_call hi hT hW hok he
    cases y with
    | error text =>
        obtain ⟨rfl, -⟩ := exec_ret he
        constructor
        · intro h
          cases h
        · rintro ⟨href, -⟩
          obtain ⟨c, l, hl, hn⟩ := terminated_of_not_refusable href
          rw [hterm] at hn
          rcases hyfail (by simp) with hz | hnone | hf
          · rw [hn] at hz
            cases hz
          · cases hnone
          · exact (not_mayFail_granted hf).elim
    | ok u =>
        obtain ⟨rfl, -⟩ := exec_ret he
        constructor
        · intro _
          refine ⟨fun href => ?_, Nat.not_lt.mp hlen.2⟩
          have hz := zstr_of_refusable href hterm
          rw [(hyok rfl).1] at hz
          cases hz
        · intro _
          rfl

theorem connectionParamInit_accepts (hi : Inv T d) (hT : T.Is W.cells) (hW : W.Ok)
    (hok : AllowedAll Ans.Granted courses) {a b : UdfArg} {r : InitResult}
    (he : exec tableIface t (kafkaConnectionParamInit [a, b]) courses T d = some (r, T', d')) :
    r.refused = none ↔ W.conn = none ∧ ∀ name value, a.const = some name → b.const = some value →
      ¬ Refusable maxSetupVarLen (some name) ∧ value.length ≤ maxSetupVarLen := by
  simp only [kafkaConnectionParamInit, List.length_cons, List.length_nil, ne_eq, not_true_eq_false,
    if_false] at he
  obtain ⟨T₁, d₁, rest, hi₁, hT₁, hok₁, he⟩ := connected_call hi hT hW hok he
  cases hconn : W.conn with
  | some conn =>
      rw [hconn] at he
      obtain ⟨rfl, -⟩ := exec_ret he
      simp [refuse]
  | none =>
      rw [hconn] at he
      obtain ⟨ta, ca⟩ := a
      obtain ⟨tb, cb⟩ := b
      simp only [Option.isSome_none, Bool.false_eq_true, if_false, true_and] at he ⊢
      cases ca with
      | none =>
          obtain ⟨rfl, -⟩ := exec_ret he
          simp [accept]
      | some name =>
          cases cb with
          | none =>
              obtain ⟨rfl, -⟩ := exec_ret he
              simp [accept]
          | some value =>
              have hconst : (∀ n v, some name = some n → some value = some v →
                  ¬ Refusable maxSetupVarLen (some n) ∧ v.length ≤ maxSetupVarLen) ↔
                  ¬ Refusable maxSetupVarLen (some name) ∧ value.length ≤ maxSetupVarLen := by
                constructor
                · intro h
                  exact h name value rfl rfl
                · rintro h n v hn hv
                  cases hn
                  cases hv
                  exact h
              rw [hconst]
              exact constParam_accepts hi₁ hT₁ hW hok₁ he

theorem statsInit_accepts (hi : Inv T d) (hT : T.Is W.cells) (hW : W.Ok)
    (hok : AllowedAll Ans.Granted courses) {a : UdfArg} (htype : a.type = .string) {r : InitResult}
    (he : exec tableIface t (kafkaStatsInit [a]) courses T d = some (r, T', d')) :
    r.refused = none ↔ W.conn.isSome ∧ ∀ topic, a.const = some topic →
      ∃ n, terminated maxTopicLen (some topic) = some n ∧ (W.findTopic n).isSome := by
  simp only [kafkaStatsInit, htype, ne_eq, not_true_eq_false, if_false] at he
  obtain ⟨T₁, d₁, rest, hi₁, hT₁, hok₁, he⟩ := connected_call hi hT hW hok he
  cases hconn : W.conn with
  | none =>
      rw [hconn] at he
      obtain ⟨rfl, -⟩ := exec_ret he
      simp [refuse]
  | some conn =>
      rw [hconn] at he
      simp only [Option.isSome_some, if_true, true_and] at he ⊢
      cases hconst : a.const with
      | none =>
          rw [hconst] at he
          obtain ⟨rfl, -⟩ := exec_ret he
          simp [accept]
      | some topic =>
          rw [hconst] at he
          simp only at he
          split at he
          · rename_i hlen
            obtain ⟨rfl, -⟩ := exec_ret he
            have hterm : terminated maxTopicLen (some topic) = none := if_pos hlen
            simp [refuse, hterm]
          · rename_i hlen
            have htopic := not_or.mp hlen
            have hterm : terminated maxTopicLen (some topic) = some (.ofBytes topic) :=
              terminated_eq htopic.1 (Nat.not_lt.mp htopic.2)
            rw [localCopy_eq (Nat.not_lt.mp htopic.2)] at he
            obtain ⟨d₂, y, T₂, d₃, W₂, b₂, rest₂, -, -, -, -, -, ⟨-, -, rfl⟩, -, he⟩ :=
              session_call hi₁ hT₁ hW hok₁ he
            rw [Option.bind_some] at he
            have hconst : (∀ s, some topic = some s → ∃ n, terminated maxTopicLen (some s) = some n ∧
                (W.findTopic n).isSome) ↔ (W.findTopic (.ofBytes topic)).isSome := by
              constructor
              · intro h
                obtain ⟨n, hn, hsome⟩ := h topic rfl
                cases hterm.symm.trans hn
                exact hsome
              · rintro h s hs
                cases hs
                exact ⟨_, hterm, h⟩
            rw [hconst]
            cases hf : (W.findTopic (.ofBytes topic)).isSome with
            | false =>
                rw [hf] at he
                obtain ⟨rfl, -⟩ := exec_ret he
                simp [refuse]
            | true =>
                rw [hf] at he
                obtain ⟨rfl, -⟩ := exec_ret he
                simp [accept]

theorem sendInit_accepts (hi : Inv T d) (hT : T.Is W.cells) (hW : W.Ok)
    (hok : AllowedAll Ans.Granted courses) {args : List UdfArg} (hargs : args.length = 2)
    {r : InitResult}
    (he : exec tableIface t (kafkaSendInit args) courses T d = some (r, T', d')) :
    r.refused = none ↔ W.conn.isSome := by
  simp only [kafkaSendInit, hargs, ne_eq, not_true_eq_false, if_false] at he
  obtain ⟨T₁, d₁, rest, -, -, -, he⟩ := connected_call hi hT hW hok he
  cases hconn : W.conn with
  | none =>
      rw [hconn] at he
      obtain ⟨rfl, -⟩ := exec_ret he
      simp [refuse]
  | some conn =>
      rw [hconn] at he
      obtain ⟨rfl, -⟩ := exec_ret he
      simp [accept]

/-! ### What the call then does -/

theorem connect_succeeds (hi : Inv T d) (hT : T.Is W.cells) (hW : W.Ok)
    (hok : AllowedAll Ans.Granted courses) (hconn : W.conn = none) {brokers : SqlArg}
    (hb : ¬ Refusable maxSetupVarLen brokers) {r : SqlInt}
    (he : exec tableIface t (kafkaConnect brokers) courses T d = some (r, T', d')) :
    r = ⟨0, false⟩ := by
  obtain ⟨c, l, hl, hterm⟩ := terminated_of_not_refusable hb
  simp only [kafkaConnect, hterm] at he
  obtain ⟨d₁, y, T₁, d₂, W₁, b₁, rest, -, -, -, -, -, ⟨-, -, hfail, -⟩, -, he⟩ :=
    session_call hi hT hW hok he
  cases y with
  | ok u => exact (exec_ret he).1
  | error text =>
      rcases (hfail (by simp)).2 with hz | hsome | hf
      · cases hz
      · rw [hconn] at hsome
        cases hsome
      · exact (not_mayFail_granted hf).elim

theorem setParam_succeeds (hi : Inv T d) (hT : T.Is W.cells) (hW : W.Ok)
    (hok : AllowedAll Ans.Granted courses) (hconn : W.conn = none) {name : SqlArg}
    {bs : List UInt8} (hn : ¬ Refusable maxSetupVarLen name) (hbs : bs.length ≤ maxSetupVarLen)
    {r : SqlInt}
    (he : exec tableIface t (kafkaConnectionParam name (some bs)) courses T d = some (r, T', d')) :
    r = ⟨0, false⟩ := by
  obtain ⟨c, l, hl, hterm⟩ := terminated_of_not_refusable hn
  simp only [kafkaConnectionParam, hterm, if_neg (Nat.not_lt.mpr hbs)] at he
  rw [localCopy_eq hbs] at he
  obtain ⟨d₁, y, T₁, d₂, W₁, b₁, rest, -, -, -, -, -, ⟨-, -, hfail⟩, -, he⟩ :=
    session_call hi hT hW hok he
  cases y with
  | ok u => exact (exec_ret he).1
  | error text =>
      rcases (hfail (by simp)).2 with hz | hv | hsome | hf
      · cases hz
      · cases hv
      · rw [hconn] at hsome
        cases hsome
      · exact (not_mayFail_granted hf).elim

/-- A message to a topic that is there is sent. -/
theorem sendMessage_succeeds (hi : Inv T d) (hT : T.Is W.cells) (hW : W.Ok)
    (hok : AllowedAll Ans.Granted courses) {topic : CStr} (hf : W.findTopic topic ≠ none)
    {data : List UInt8} {r : SqlInt}
    (he : exec tableIface t (sendMessage topic data) courses T d = some (r, T', d')) :
    r.error = false := by
  obtain ⟨d₁, y, T₁, d₂, W₁, b₁, rest, -, -, -, -, -, ⟨-, hsent⟩, -, he⟩ :=
    session_call hi hT hW hok he
  rcases hsent with ⟨hy, hlen, -⟩ | ⟨-, -, hnone | hfail⟩
  · rw [hy, cInt_of_le hlen, if_neg (by omega)] at he
    obtain ⟨rfl, -⟩ := exec_ret he
    rfl
  · exact absurd hnone hf
  · exact (not_mayFail_granted hfail).elim

theorem send_succeeds (hi : Inv T d) (hT : T.Is W.cells) (hW : W.Ok)
    (hok : AllowedAll Ans.Granted courses) (hconn : W.conn.isSome) {topic : SqlArg}
    {data : List UInt8} (htopic : ¬ Refusable maxTopicLen topic) {r : SqlInt}
    (he : exec tableIface t (kafkaSend topic (some data)) courses T d = some (r, T', d')) :
    r.error = false := by
  obtain ⟨c, l, hl, hterm⟩ := terminated_of_not_refusable htopic
  simp only [kafkaSend, hterm] at he
  obtain ⟨d₁, found, T₁, d₂, W₁, b₁, rest, -, hi₁, hT₁, hW₁, -, ⟨rfl, -, hfound⟩, hok₁, he⟩ :=
    session_call hi hT hW hok he
  rw [Option.bind_some] at hfound
  cases hf : W₁.findTopic ⟨c :: l, hl⟩ with
  | some x =>
      rw [hfound, hf] at he
      exact sendMessage_succeeds hi₁ hT₁ hW₁ hok₁ (by rw [hf]; simp) he
  | none =>
      -- the topic is created first
      rw [hfound, hf] at he
      obtain ⟨d₃, y, T₂, d₄, W₂, b₂, rest', -, hi₂, hT₂, hW₂, -, ⟨-, hcr, hfail⟩, hok₂, he⟩ :=
        session_call hi₁ hT₁ hW₁ hok₁ he
      have hy : y = 0 := by
        by_contra hne
        rcases hfail hne with h | h | h
        · exact not_mayFail_granted h
        · rw [h] at hconn
          cases hconn
        · cases h
      rw [if_neg (not_not.mpr hy)] at he
      refine sendMessage_succeeds hi₂ hT₂ hW₂ hok₂ ?_ he
      obtain ⟨n, hn, ⟨⟨x, hx⟩, -⟩ | ⟨-, -, -, reg, hreg, -, hobs⟩⟩ := hcr.ok hy
      · cases hn
        rw [hf] at hx
        cases hx
      · cases hn
        intro hnone
        have hregs : W₂.regs = W₁.regs ++ [reg] := congrArg Obs.topics hobs
        exact World.findTopic_none hnone reg (by rw [hregs]; simp) hreg

/-! ### That the call returns -/

/-- The function can return, where nothing fails outside. -/
def Returns {α : Type} (t : Nat) (p : Session α) (s : TableState) : Prop :=
  ∃ courses x T d, AllowedAll Ans.Granted courses ∧
    exec tableIface t p courses s.sh s.fr = some (x, T, d)

theorem Returns.pure {α : Type} {x : α} {s : TableState} : Returns t (pure x) s :=
  ⟨[], x, s.sh, s.fr, fun _ hc => (by cases hc), rfl⟩

/-- It can where its next call ends and it can from there. -/
theorem Returns.table {α : Type} {c : TableCall} {k : c.Ret → Session α} {s : TableState}
    {Q : c.Ret → Tab → Prop} (hc : GrantedEnds (tableProg c) s.sh Q)
    (hk : ∀ r s', Q r s'.sh → Returns t (k r) s') : Returns t (table c >>= k) s := by
  obtain ⟨course, r, T, d, hcourse, he, hQ⟩ := s.granted_returns t hc
  obtain ⟨s', rfl, rfl⟩ := s.call he
  obtain ⟨courses, x, T', d', hok, he'⟩ := hk r s' hQ
  refine ⟨.ans course :: courses, x, T', d', ?_, (Conc.exec_cons he).trans he'⟩
  intro c' hc'
  rcases List.mem_cons.mp hc' with e | hc'
  · cases e
    exact hcourse
  · exact hok c' hc'

theorem sendMessage_returns {s : TableState} (topic : CStr) {data : List UInt8}
    (hlen : data.length ≤ messageMaxBytes) : Returns t (sendMessage topic data) s := by
  refine .table (send_ends _ hlen) fun sent s' _ => ?_
  split <;> exact .pure

/-- **What the function can carry out returns.** -/
theorem feasible_returns (s : TableState) {c : Command} (hdo : c.Feasible) (hfits : c.Fits s.sh) :
    Returns t (commandProg package c) s := by
  obtain ⟨W, hW, hT⟩ := s.world
  cases c with
  | connect brokers =>
      obtain ⟨b, l, hl, hterm⟩ := terminated_of_not_refusable hdo
      simp only [commandProg, kafkaConnect, hterm]
      have hps : ∀ p ∈ s.sh.kt.params.items, zstr (some p.name.val) = false := by
        rw [hT.kt]
        exact hW.nonempty
      have hz : zstr (some (⟨b :: l, hl⟩ : CStr)) = false := rfl
      refine .table (connect_ends hz hps) fun r s' _ => ?_
      cases r <;> exact .pure
  | connectionParam name value =>
      obtain ⟨hname, bs, rfl, hbs⟩ := hdo
      obtain ⟨b, l, hl, hterm⟩ := terminated_of_not_refusable hname
      simp only [commandProg, kafkaConnectionParam, hterm, if_neg (Nat.not_lt.mpr hbs)]
      refine .table (setParam_ends _ _ hfits) fun r s' _ => ?_
      cases r <;> exact .pure
  | send topic msg =>
      obtain ⟨htopic, hmsg⟩ := hdo
      obtain ⟨data, rfl⟩ := Option.isSome_iff_exists.mp hmsg
      obtain ⟨hroom, hlen⟩ := hfits
      obtain ⟨b, l, hl, hterm⟩ := terminated_of_not_refusable htopic
      simp only [commandProg, kafkaSend, hterm]
      refine .table (exists_ends _) fun found s₁ hs₁ => ?_
      split
      · exact sendMessage_returns _ (hlen data rfl)
      · refine .table (create_ends _ (hs₁ ▸ hroom)) fun created s₂ _ => ?_
        split
        · exact .pure
        · exact sendMessage_returns _ (hlen data rfl)
  | disconnect topic => exact hdo.elim
  | stats topic => exact hdo.elim
  | info => exact hdo.elim

/-! ### Agreement -/

/-- What `_init` found wrong fails the call. -/
theorem refused_fails (hi : Inv T d) (hT : T.Is W.cells) (hW : W.Ok)
    (hok : AllowedAll Ans.Granted courses) {fn : SqlFunction} {args : List UdfArg}
    {row : List SqlArg} (hsup : Supplies args row)
    (htype : fn = .stats → ∀ a ∈ args, a.type = .string) {c : Command}
    (hc : fn.command row = some c) {r : InitResult} {T₁ : Tab} {d₁ : Flow}
    (hinit : exec tableIface t (initChecks fn args) courses T d = some (r, T₁, d₁))
    (hr : r.refused ≠ none) (hi₁ : Inv T₁ d₁) (hT₁ : T₁.Is W.cells)
    {courses' : List (Item Course Ev)} {x : c.Ret}
    (hcall : exec tableIface t (commandProg package c) courses' T₁ d₁ = some (x, T', d')) :
    Refused c x ∧ T'.seen = T₁.seen := by
  unfold SqlFunction.command at hc
  split at hc
  · -- kafka_connect
    cases hc
    have hargs : args.length = 1 := hsup.length_eq
    rw [Ne, connectInit_accepts hi hT hW hok hargs hinit] at hr
    exact connect_fails hi₁ hT₁ hW (Option.isSome_iff_ne_none.mpr hr) hcall
  · -- kafka_connection_param
    rename_i name value
    cases hc
    cases hsup with
    | @cons a _ as _ ha hsup =>
    cases hsup with
    | @cons b _ bs _ hb hsup =>
    cases hsup
    rw [Ne, connectionParamInit_accepts hi hT hW hok hinit] at hr
    refine connectionParam_fails hi₁ hT₁ hW ?_ hcall
    by_cases hconn : W.conn = none
    · right
      simp only [hconn, true_and, not_forall] at hr
      obtain ⟨n, v, hn, hv, hbad⟩ := hr
      rw [ha n hn, hb v hv]
      rcases not_and_or.mp hbad with href | hlong
      · exact Or.inl ⟨rfl, not_not.mp href⟩
      · exact Or.inr ⟨v, rfl, Nat.not_le.mp hlong⟩
    · exact Or.inl (Option.isSome_iff_ne_none.mpr hconn)
  · -- kafka_disconnect()
    cases hc
    have hargs : args.length = 0 := hsup.length_eq
    simp only [initChecks, kafkaDisconnectInit, hargs, Nat.not_lt_zero, if_false] at hinit
    obtain ⟨rfl, -⟩ := exec_ret hinit
    exact absurd rfl hr
  · -- kafka_disconnect(topic)
    cases hc
    have hargs : args.length = 1 := hsup.length_eq
    simp only [initChecks, kafkaDisconnectInit, hargs, Nat.lt_irrefl, if_false] at hinit
    obtain ⟨rfl, -⟩ := exec_ret hinit
    exact absurd rfl hr
  · -- kafka_send
    cases hc
    have hargs : args.length = 2 := hsup.length_eq
    rw [Ne, sendInit_accepts hi hT hW hok hargs hinit] at hr
    exact send_fails hi₁ hT₁ hW (by simpa using hr) hcall
  · -- kafka_stats
    rename_i topic
    cases hc
    cases hsup with
    | @cons a _ as _ ha hsup =>
    cases hsup
    rw [Ne, statsInit_accepts hi hT hW hok (htype rfl a List.mem_cons_self) hinit] at hr
    refine stats_fails hi₁ hT₁ hW ?_ hcall
    by_contra hfound
    refine hr ⟨?_, ?_⟩
    · obtain ⟨y, hy⟩ := Option.ne_none_iff_exists'.mp hfound
      obtain ⟨conn, hconn⟩ := World.conn_of_findTopic hy
      rw [hconn]
      rfl
    · intro s hs
      rw [ha s hs] at hfound
      cases hterm : terminated maxTopicLen (some s) with
      | some n =>
          rw [hterm] at hfound
          exact ⟨n, rfl, Option.isSome_iff_ne_none.mpr hfound⟩
      | none =>
          rw [hterm] at hfound
          exact absurd (hW.findTopic_zstr rfl) hfound
  · -- kafka_info
    cases hc
    have hargs : args.length = 0 := hsup.length_eq
    simp only [initChecks, kafkaInfoInit, hargs, ne_eq, not_true_eq_false, if_false] at hinit
    obtain ⟨rfl, -⟩ := exec_ret hinit
    exact absurd rfl hr
  · cases hc

/-- What `_init` accepted succeeds, where the function can carry it out. -/
theorem accepted_succeeds (hi : Inv T d) (hT : T.Is W.cells) (hW : W.Ok)
    (hok : AllowedAll Ans.Granted courses) {fn : SqlFunction} {args : List UdfArg}
    {row : List SqlArg} (hsup : Supplies args row) {c : Command} (hc : fn.command row = some c)
    {r : InitResult} {T₁ : Tab} {d₁ : Flow}
    (hinit : exec tableIface t (initChecks fn args) courses T d = some (r, T₁, d₁))
    (hr : r.refused = none) (hi₁ : Inv T₁ d₁) (hT₁ : T₁.Is W.cells) (hdo : c.Feasible)
    {courses' : List (Item Course Ev)} (hok' : AllowedAll Ans.Granted courses') {x : c.Ret}
    (hcall : exec tableIface t (commandProg package c) courses' T₁ d₁ = some (x, T', d')) :
    ¬ Refused c x := by
  unfold SqlFunction.command at hc
  split at hc
  · -- kafka_connect
    cases hc
    have hargs : args.length = 1 := hsup.length_eq
    rw [connectInit_accepts hi hT hW hok hargs hinit] at hr
    have hx := connect_succeeds hi₁ hT₁ hW hok' hr hdo hcall
    exact fun h => SqlInt.ne_failed (hx.symm.trans h)
  · -- kafka_connection_param
    rename_i name value
    cases hc
    obtain ⟨hname, bs, rfl, hbs⟩ := hdo
    cases hsup with
    | @cons a _ as _ ha hsup =>
    cases hsup with
    | @cons b _ bs _ hb hsup =>
    cases hsup
    rw [connectionParamInit_accepts hi hT hW hok hinit] at hr
    have hx := setParam_succeeds hi₁ hT₁ hW hok' hr.1 hname hbs hcall
    exact fun h => SqlInt.ne_failed (hx.symm.trans h)
  · cases hc
    exact hdo.elim
  · cases hc
    exact hdo.elim
  · -- kafka_send
    rename_i topic msg
    cases hc
    obtain ⟨htopic, hmsg⟩ := hdo
    obtain ⟨data, rfl⟩ := Option.isSome_iff_exists.mp hmsg
    have hargs : args.length = 2 := hsup.length_eq
    rw [sendInit_accepts hi hT hW hok hargs hinit] at hr
    have hx := send_succeeds hi₁ hT₁ hW hok' hr htopic hcall
    intro h
    rw [show x = SqlInt.failed from h] at hx
    cases hx
  · cases hc
    exact hdo.elim
  · cases hc
    exact hdo.elim
  · cases hc

end agree

/-- **The check in `_init` agrees with the call.**  It changes nothing.  Where nothing fails
outside, a call whose constants and whose state `_init` refuses fails and changes nothing; and one
that `_init` accepts succeeds, with any values of the arguments that were not constant which the
function can carry out at all, and it does return where what it needs fits. -/
theorem init_agrees (package : PackageString) {hs : List Finished} {T T₁ : Tab} {d d₁ : Flow}
    (h : FromLoad (fun _ => True) hs T d) {fn : SqlFunction} {args : List UdfArg}
    {row : List SqlArg} (hsup : Supplies args row)
    (htype : fn = .stats → ∀ a ∈ args, a.type = .string) {c : Command}
    (hc : fn.command row = some c) {t : Nat} {courses : List (Item Course Ev)}
    (hok : AllowedAll Ans.Granted courses) {r : InitResult}
    (hinit : exec tableIface t (initChecks fn args) courses T d = some (r, T₁, d₁)) :
    T₁.seen = T.seen ∧
      (r.refused ≠ none → ∀ courses' x T' d',
        exec tableIface t (commandProg package c) courses' T₁ d₁ = some (x, T', d') →
        Refused c x ∧ T'.seen = T.seen) ∧
      (r.refused = none → c.Feasible →
        (∀ courses' x T' d', AllowedAll Ans.Granted courses' →
          exec tableIface t (commandProg package c) courses' T₁ d₁ = some (x, T', d') →
          ¬ Refused c x) ∧
        (c.Fits T → ∃ courses' x T' d', AllowedAll Ans.Granted courses' ∧
          exec tableIface t (commandProg package c) courses' T₁ d₁ = some (x, T', d'))) := by
  obtain ⟨hi, W, hW, hT⟩ := h.world
  obtain ⟨hi₁, hT₁⟩ := looks_leave hi hT hW (initChecks_straight fn args) hinit
  have hseen : T₁.seen = T.seen := by rw [hT₁.seen, hT.seen]
  have hkt : T₁.kt = T.kt := hT₁.kt.trans hT.kt.symm
  refine ⟨hseen, ?_, ?_⟩
  · intro hr courses' x T' d' hcall
    obtain ⟨hx, hsame⟩ := refused_fails hi hT hW hok hsup htype hc hinit hr hi₁ hT₁ hcall
    exact ⟨hx, hsame.trans hseen⟩
  · intro hr hdo
    constructor
    · intro courses' x T' d' hok' hcall
      exact accepted_succeeds hi hT hW hok hsup hc hinit hr hi₁ hT₁ hdo hok' hcall
    · intro hfits
      have hfits₁ : c.Fits T₁ := by
        cases c <;> first | trivial | (simp only [Command.Fits, hkt]; exact hfits)
      exact feasible_returns ⟨T₁, d₁, hi₁, W, hW, hT₁⟩ hdo hfits₁

/-- A property and its value, both constant: `_init` accepts them, and the call stores them. -/
theorem constantParam_agrees : ∃ r T d courses' x T' d',
    exec tableIface 0 (initChecks .connectionParam [⟨.string, some [97]⟩, ⟨.int, some [49]⟩])
      [.ans (quietly 3), .ans (quietly 3)] Tab.init Flow.init = some (r, T, d) ∧
    r = accept [.string, .string] ∧ T.seen = Tab.init.seen ∧
    exec tableIface 0 (commandProg somePackage (.connectionParam (some [97]) (some [49])))
      courses' T d = some (x, T', d') ∧
    ¬ Refused (.connectionParam (some [97]) (some [49])) x := by
  have hrun : (exec tableIface 0
      (initChecks .connectionParam [⟨.string, some [97]⟩, ⟨.int, some [49]⟩])
      [.ans (quietly 3), .ans (quietly 3)] Tab.init Flow.init).map (·.1) =
      some (accept [.string, .string]) := by
    decide +kernel
  obtain ⟨⟨r, T, d⟩, hinit, hr⟩ := Option.map_eq_some_iff.mp hrun
  obtain rfl : r = accept [.string, .string] := hr
  have hok : AllowedAll Ans.Granted [.ans (quietly 3), .ans (quietly 3)] := by
    intro c hc
    obtain rfl : c = quietly 3 := by simpa using hc
    exact allowed_quietly (Or.inl rfl) 3
  have hdo : (Command.connectionParam (some [97]) (some [49])).Feasible := by
    refine ⟨fun href => ?_, [49], rfl, by decide⟩
    rcases href 97 [] rfl with h | h
    · exact absurd h (by decide)
    · cases h
  obtain ⟨hseen, -, hagree⟩ := init_agrees somePackage (.nil : FromLoad _ [] Tab.init Flow.init)
    (.cons (fun _ h => h) (.cons (fun _ h => h) .nil)) (fun h => by cases h)
    (show SqlFunction.connectionParam.command _ = _ from rfl) hok hinit
  obtain ⟨hnot, hreturns⟩ := hagree rfl hdo
  obtain ⟨courses', x, T', d', hok', hcall⟩ := hreturns (Or.inr (by decide))
  exact ⟨_, T, d, courses', x, T', d', hinit, rfl, hseen, hcall, hnot courses' x T' d' hok' hcall⟩

end TrigEmit
