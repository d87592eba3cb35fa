import TrigEmitKafka.Rules.Ops
import Mathlib.Tactic.Abel

/-!
# Rules — the table between two critical sections

`World` is what the table is for, with the pointers it is made of: the stored parameters, and
while connected a producer with its topics and its retired records.  A world without a
connection has neither.  `World.cells` is the `Tab` it stands for, down to every object of every
heap, and `World.Ok` says when it is well formed: names are unique and not empty, the arrays
have the memory their capacity says, and the producer was built from the stored parameters.
-/

namespace TrigEmit

open Store (Heap)
open Slots (firstIdx)

/-! ### Bags -/

section bag

variable {α β : Type}

/-- The values of `f` on a list, in any order. -/
def bag (f : α → β) (l : List α) : Multiset β := (l.map f : List β)

@[simp] theorem bag_nil (f : α → β) : bag f [] = 0 := rfl

@[simp] theorem bag_cons (f : α → β) (a : α) (l : List α) : bag f (a :: l) = {f a} + bag f l := rfl

@[simp] theorem bag_append (f : α → β) (l l' : List α) : bag f (l ++ l') = bag f l + bag f l' := by
  simp [bag]

theorem bag_perm {f : α → β} {l l' : List α} (h : l.Perm l') : bag f l = bag f l' :=
  Multiset.coe_eq_coe.mpr (h.map f)

theorem mem_bag {f : α → β} {a : α} {l : List α} (h : a ∈ l) : f a ∈ bag f l :=
  Multiset.mem_coe.mpr (List.mem_map_of_mem h)

theorem exists_of_mem_bag {f : α → β} {y : β} {l : List α} (h : y ∈ bag f l) :
    ∃ a ∈ l, f a = y := List.mem_map.mp (Multiset.mem_coe.mp h)

end bag

/-! ### Arrays -/

namespace CArray

variable {α β : Type}

/-- The array of the values of `f`. -/
def map (f : α → β) (a : CArray α) : CArray β := ⟨a.ptr, a.items.map f, a.capacity⟩

@[simp] theorem map_ptr (f : α → β) (a : CArray α) : (a.map f).ptr = a.ptr := rfl
@[simp] theorem map_items (f : α → β) (a : CArray α) : (a.map f).items = a.items.map f := rfl
@[simp] theorem map_capacity (f : α → β) (a : CArray α) : (a.map f).capacity = a.capacity := rfl
@[simp] theorem map_null (f : α → β) : (null : CArray α).map f = null := rfl

/-- The memory of the array. -/
def mem (itemsize : Nat) (a : CArray α) : Multiset (Nat × Nat) := block a.ptr (a.capacity * itemsize)

/-- The array has the memory its capacity says, which no allocation refuses. -/
structure Ok (itemsize : Nat) (a : CArray α) : Prop where
  length : a.items.length ≤ a.capacity
  ptr : a.ptr = none ↔ a.capacity = 0
  bound : a.capacity * itemsize ≤ ptrdiffMax

theorem ok_null (itemsize : Nat) : (null : CArray α).Ok itemsize :=
  ⟨le_refl _, by simp [null], by simp [null, ptrdiffMax]⟩

theorem Ok.map {itemsize : Nat} {a : CArray α} (h : a.Ok itemsize) (f : α → β) :
    (a.map f).Ok itemsize :=
  ⟨by simpa using h.length, h.ptr, h.bound⟩

theorem Ok.of_le {itemsize : Nat} {a : CArray α} (h : a.Ok itemsize) {l : List β}
    (hl : l.length ≤ a.capacity) : CArray.Ok itemsize ⟨a.ptr, l, a.capacity⟩ :=
  ⟨hl, h.ptr, h.bound⟩

/-- A well-formed array lies in its own memory. -/
theorem Ok.fits {itemsize : Nat} {a : CArray α} {arrays : Multiset (Nat × Nat)}
    (h : a.Ok itemsize) (ha : a.mem itemsize ≤ arrays) : a.Fits arrays itemsize := by
  cases hp : a.ptr with
  | none =>
      have hl := h.length
      rw [h.ptr.mp hp] at hl
      exact Or.inl (List.eq_nil_of_length_eq_zero (by omega))
  | some p =>
      refine Or.inr ⟨p, a.capacity * itemsize, hp, ?_, Nat.mul_le_mul_right _ h.length⟩
      refine Multiset.mem_of_le ha ?_
      simp [mem, hp, block]

end CArray

/-! ### Worlds -/

/-- A registered topic: its record, its name, its handle. -/
structure Reg where
  tt : Nat
  name : Str
  rkt : Nat

/-- A record whose handle is gone: its producer is the one it was created on. -/
structure Old where
  tt : Nat
  name : Str
  tk : Nat

/-- A running producer: its record, its broker list, its instance and its thread. -/
structure Producer where
  tk : Nat
  brokers : Str
  rk : Nat
  thr : Nat
  /-- What the instance was built from. -/
  conf : Conf

/-- What is there while the module is connected. -/
structure Conn extends Producer where
  topics : CArray Reg
  retired : CArray Old

/-- The table between two critical sections. -/
structure World where
  params : CArray KafkaParam
  conn : Option Conn
  leaked : List Old
  disposed : List Nat
  handed : List Conf

def World.init : World := ⟨.null, none, [], [], []⟩

def Reg.cell (tk : Nat) (r : Reg) : Nat × TekTopic := (r.tt, ⟨some r.name, some r.rkt, some tk⟩)

def Reg.handle (rk : Nat) (r : Reg) : Nat × RdKafkaTopic := (r.rkt, ⟨rk, r.name.val⟩)

def Old.cell (r : Old) : Nat × TekTopic := (r.tt, ⟨some r.name, none, some r.tk⟩)

/-- What `tek_kafka_topic_dispose` leaves of a registered topic. -/
def Reg.old (tk : Nat) (r : Reg) : Old := ⟨r.tt, r.name, tk⟩

/-- The strings of the stored parameters. -/
def paramStrs (ps : List KafkaParam) : Multiset (Nat × CStr) :=
  bag (fun p => p.name.cell) ps + bag (fun p => p.value.cell) ps

namespace Conn

def strs (c : Conn) : Multiset (Nat × CStr) :=
  {c.brokers.cell} + bag (fun r => r.name.cell) c.topics.items +
    bag (fun r => r.name.cell) c.retired.items

def arrays (c : Conn) : Multiset (Nat × Nat) := c.topics.mem topicSize + c.retired.mem topicSize

def records (c : Conn) : Multiset (Nat × TekTopic) :=
  bag (Reg.cell c.tk) c.topics.items + bag Old.cell c.retired.items

/-- The producer's record. -/
def producer (c : Conn) : Nat × TekKafka :=
  (c.tk, ⟨some c.brokers, none, some c.rk, c.thr, true, true⟩)

/-- The connection is well formed, over the stored parameters. -/
structure Ok (c : Conn) (params : List KafkaParam) : Prop where
  conf : c.conf = applied c.brokers.val params
  topics : c.topics.Ok topicSize
  retired : c.retired.Ok topicSize
  names : (c.topics.items.map fun r => r.name.val).Nodup
  nonempty : ∀ r ∈ c.topics.items, zstr (some r.name.val) = false

end Conn

namespace World

/-- The `kt` of a world. -/
def kt (W : World) : KafkaTables where
  producer := W.conn.map (·.tk)
  params := W.params
  topics := W.conn.elim .null fun c => c.topics.map (·.tt)
  retired := W.conn.elim .null fun c => c.retired.map (·.tt)

/-- Everything a world is made of. -/
def cells (W : World) : Cells where
  kt := W.kt
  strs := paramStrs W.params.items + W.conn.elim 0 Conn.strs + bag (fun r => r.name.cell) W.leaked
  arrays := W.params.mem paramSize + W.conn.elim 0 Conn.arrays
  topics := W.conn.elim 0 Conn.records + bag Old.cell W.leaked
  producers := W.conn.elim 0 fun c => {c.producer}
  confs := 0
  rks := W.conn.elim 0 fun c => {(c.rk, ⟨c.conf⟩)}
  rkts := W.conn.elim 0 fun c => bag (Reg.handle c.rk) c.topics.items
  threads := W.conn.elim 0 fun c => {(c.thr, c.tk)}
  disposed := W.disposed
  leaked := W.leaked.map (·.tt)
  handed := W.handed

/-- The world is well formed. -/
structure Ok (W : World) : Prop where
  params : W.params.Ok paramSize
  names : (W.params.items.map fun p => p.name.val).Nodup
  nonempty : ∀ p ∈ W.params.items, zstr (some p.name.val) = false
  conn : ∀ c, W.conn = some c → c.Ok W.params.items
  /-- The producer was built from the last configuration handed out. -/
  last : ∀ c, W.conn = some c → W.handed.getLast? = some c.conf
  flushed : ∀ c, W.conn = some c → ∀ r ∈ c.retired.items, r.tt ∈ W.disposed

/-- The registered topics. -/
def regs (W : World) : List Reg := W.conn.elim [] fun c => c.topics.items

theorem ok_init : World.init.Ok :=
  ⟨CArray.ok_null _, List.nodup_nil, by simp [init, CArray.null], by simp [init], by simp [init],
    by simp [init]⟩

theorem is_init : Tab.init.Is World.init.cells where
  kt := rfl
  strs := Heap.holds_empty
  arrays := Heap.holds_empty
  topics := Heap.holds_empty
  producers := Heap.holds_empty
  confs := Heap.holds_empty
  rks := Heap.holds_empty
  rkts := Heap.holds_empty
  threads := Heap.holds_empty
  disposed := rfl
  leaked := rfl
  handed := rfl

end World

namespace World

variable {W : World} {c : Conn}

theorem kt_topics (W : World) : W.kt.topics.items = W.regs.map (·.tt) := by
  cases h : W.conn <;> simp [kt, regs, h, CArray.null]

theorem regs_conn (hc : W.conn = some c) : W.regs = c.topics.items := by simp [regs, hc]

theorem producer_mem (hc : W.conn = some c) : c.producer ∈ W.cells.producers := by
  simp [cells, hc]

theorem rk_mem (hc : W.conn = some c) : (c.rk, ⟨c.conf⟩) ∈ W.cells.rks := by simp [cells, hc]

theorem reg_mem (hc : W.conn = some c) {r : Reg} (hr : r ∈ c.topics.items) :
    r.cell c.tk ∈ W.cells.topics := by
  have := mem_bag (f := Reg.cell c.tk) hr
  simp [cells, hc, Conn.records, this]

theorem reg_str_mem (hc : W.conn = some c) {r : Reg} (hr : r ∈ c.topics.items) :
    r.name.cell ∈ W.cells.strs := by
  have := mem_bag (f := fun r : Reg => r.name.cell) hr
  simp [cells, hc, Conn.strs, this]

theorem handle_mem (hc : W.conn = some c) {r : Reg} (hr : r ∈ c.topics.items) :
    r.handle c.rk ∈ W.cells.rkts := by
  have := mem_bag (f := Reg.handle c.rk) hr
  simp [cells, hc, this]

theorem param_mem {p : KafkaParam} (hp : p ∈ W.params.items) :
    p.name.cell ∈ W.cells.strs ∧ p.value.cell ∈ W.cells.strs := by
  have h₁ := mem_bag (f := fun p : KafkaParam => p.name.cell) hp
  have h₂ := mem_bag (f := fun p : KafkaParam => p.value.cell) hp
  simp [cells, paramStrs, h₁, h₂]

end World

/-! ### What can be observed -/

/-- What can be observed of the table: the stored parameters, the producer, the topics. -/
structure Obs where
  params : List (CStr × CStr)
  producer : Option Producer
  topics : List Reg

def World.obs (W : World) : Obs where
  params := W.params.items.map fun p => (p.name.val, p.value.val)
  producer := W.conn.map (·.toProducer)
  topics := W.regs

/-- The connection is the same but for spare capacity, and its retired records may be gone. -/
structure Conn.Spare (c c' : Conn) : Prop where
  producer : c'.toProducer = c.toProducer
  topics : c'.topics.items = c.topics.items
  retired : c'.retired.items = c.retired.items ∨ c'.retired.items = []

theorem Conn.Spare.trans {c c' c'' : Conn} (h : c.Spare c') (h' : c'.Spare c'') : c.Spare c'' where
  producer := h'.producer.trans h.producer
  topics := h'.topics.trans h.topics
  retired := by
    rcases h'.retired with e | e
    · rw [e]; exact h.retired
    · exact Or.inr e

/-- The world is the same but for spare capacity, and its retired records may be gone. -/
structure World.Spare (W W' : World) : Prop where
  params : W'.params.items = W.params.items
  conn : Option.Rel Conn.Spare W.conn W'.conn
  leaked : W'.leaked = W.leaked
  disposed : W'.disposed = W.disposed

namespace World.Spare

variable {W W' W'' : World}

theorem refl (W : World) : W.Spare W where
  params := rfl
  conn := by
    cases W.conn with
    | none => exact .none
    | some c => exact .some ⟨rfl, rfl, Or.inl rfl⟩
  leaked := rfl
  disposed := rfl

theorem trans (h : W.Spare W') (h' : W'.Spare W'') : W.Spare W'' where
  params := h'.params.trans h.params
  conn := by
    have h₁ := h.conn
    have h₂ := h'.conn
    revert h₁ h₂
    cases W.conn <;> cases W'.conn <;> cases W''.conn <;> intro h₁ h₂ <;> cases h₁ <;> cases h₂
    · exact .none
    · rename_i hc hc'
      exact .some (hc.trans hc')
  leaked := h'.leaked.trans h.leaked
  disposed := h'.disposed.trans h.disposed

/-- Nothing that can be observed differs. -/
theorem obs (h : W.Spare W') : W'.obs = W.obs := by
  have hc := h.conn
  rw [World.obs, World.obs, World.regs, World.regs, h.params]
  revert hc
  cases W.conn <;> cases W'.conn <;> intro hc <;> cases hc
  · rfl
  · rename_i hc
    simp only [Option.map_some, Option.elim, hc.producer, hc.topics]

theorem regs (h : W.Spare W') : W'.regs = W.regs := congrArg Obs.topics h.obs

end World.Spare

/-- The first parameter of the name, with its index. -/
def World.findParam (W : World) (name : CStr) : Option (Nat × KafkaParam) :=
  firstIdx (fun p => decide (p.name.val = name)) 0 W.params.items

/-- The first topic of the name, with its index. -/
def World.findTopic (W : World) (topic : CStr) : Option (Nat × Reg) :=
  firstIdx (fun r => decide (r.name.val = topic)) 0 W.regs

/-- **The table invariant**: the guarded state is a well-formed world. -/
def TableInv (T : Tab) : Prop := ∃ W : World, W.Ok ∧ T.Is W.cells

/-- The record has a handle of the instance of the current producer, and the instance is live. -/
def Tab.OnCurrent (T : Tab) (tt : Nat) : Prop :=
  ∃ v h tk p rk k, T.topics.get tt = some v ∧ v.rkt = some h ∧ v.producer = some tk ∧
    T.kt.producer = some tk ∧ T.producers.get tk = some p ∧ p.rk = some rk ∧ T.rks.Live rk ∧
    T.rkts.get h = some k ∧ k.rk = rk

/-- A registered record is on the current producer. -/
theorem TableInv.onCurrent {T : Tab} (hT : TableInv T) {tt : Nat}
    (htt : tt ∈ T.kt.topics.items) : T.OnCurrent tt := by
  obtain ⟨W, -, h⟩ := hT
  have hregs : T.kt.topics.items = W.regs.map (·.tt) := by
    rw [h.kt]
    exact W.kt_topics
  rw [hregs] at htt
  obtain ⟨r, hr, rfl⟩ := List.mem_map.mp htt
  cases hc : W.conn with
  | none =>
      rw [World.regs, hc] at hr
      cases hr
  | some c =>
      rw [World.regs_conn hc] at hr
      have hk : T.kt.producer = some c.tk := by
        rw [h.kt]
        simp [World.cells, World.kt, hc]
      exact ⟨_, r.rkt, c.tk, _, c.rk, _, h.topics.get (World.reg_mem hc hr), rfl, rfl, hk,
        h.producers.get (World.producer_mem hc), rfl,
        Heap.live_of_get (h.rks.get (World.rk_mem hc)), h.rkts.get (World.handle_mem hc hr), rfl⟩

end TrigEmit
